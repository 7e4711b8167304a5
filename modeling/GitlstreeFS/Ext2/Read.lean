import GitlstreeFS.Ext2.Model

/-!
# What is read of a file

`Read` should give the bytes of the blocks of a file, one block behind the other (`concatenation`), from
the offset on. Where the offset is at the beginning of a block, it does (`copy_aligned`).

Within a block, `copy` is wrong by a subtraction: the first `memcpy` copies `remaining_size` bytes less
`offset % block_size`, where it should be `block_size` less this, and does not stop at the end of the
block. `Arranged` says for which reads this makes no difference, by their length or because of where the
blocks happen to be in the image, and `readsRight_iff` that there are no others.
-/

namespace GitlstreeFS.Ext2

open Blocks

variable {bs : ℕ}

/-! ### `memcpy` -/

@[simp] theorem length_memcpy (src : ℤ) (n : ℕ) : (memcpy src n).length = n := by
  simp [memcpy]

theorem getElem?_memcpy {n i : ℕ} (hi : i < n) (src : ℤ) : (memcpy src n)[i]? = some (src + i) := by
  rw [memcpy, List.getElem?_map, List.getElem?_range hi]
  rfl

theorem take_memcpy {n k : ℕ} (h : n ≤ k) (src : ℤ) : (memcpy src k).take n = memcpy src n := by
  rw [memcpy, ← List.map_take, List.take_range, Nat.min_eq_left h]
  rfl

/-! ### The blocks, one behind the other -/

/-- The bytes of the blocks. -/
def concatenation (bs : ℕ) (blocks : List ℤ) : List ℤ :=
  blocks.flatMap fun block => memcpy block bs

theorem length_concatenation (bs : ℕ) (blocks : List ℤ) :
    (concatenation bs blocks).length = blocks.length * bs :=
  length_flatMap (fun block => length_memcpy block bs) blocks

theorem drop_mul_concatenation (bs b : ℕ) (blocks : List ℤ) :
    (concatenation bs blocks).drop (b * bs) = concatenation bs (blocks.drop b) :=
  drop_mul_flatMap (fun block => length_memcpy block bs) blocks b

/-- The byte at a position of the file. -/
theorem getElem?_concatenation (h_bs : 0 < bs) (blocks : List ℤ) (p : ℕ) :
    (concatenation bs blocks)[p]? = blocks[p / bs]?.map fun block : ℤ => block + (p % bs : ℕ) := by
  rw [concatenation, getElem?_flatMap h_bs fun block => length_memcpy block bs]
  cases blocks[p / bs]? with
  | none => rfl
  | some block => exact getElem?_memcpy (Nat.mod_lt p h_bs) block

/-- The bytes from an offset on, seen from the block that it is in. -/
theorem drop_concatenation (bs offset : ℕ) (blocks : List ℤ) :
    (concatenation bs blocks).drop offset
      = (concatenation bs (blocks.drop (offset / bs))).drop (offset % bs) := by
  rw [← drop_mul_concatenation, List.drop_drop, Nat.mul_comm, Nat.div_add_mod]

/-- All of these bytes are in one of the blocks. -/
theorem exists_block_of_mem {a : ℤ} {blocks : List ℤ} (h : a ∈ concatenation bs blocks) :
    ∃ block ∈ blocks, block ≤ a ∧ a < block + bs := by
  obtain ⟨block, h_block, h⟩ := List.mem_flatMap.mp h
  obtain ⟨i, hi, rfl⟩ := List.mem_map.mp h
  rw [List.mem_range] at hi
  exact ⟨block, h_block, by omega, by omega⟩

/-! ### `copy` -/

/-- **Specification of the loop**: it copies from the beginning of the first block on, if there is as
much in the blocks. -/
theorem copyBlocks_eq (blocks : List ℤ) (n : ℕ) :
    copyBlocks bs blocks n = if n ≤ blocks.length * bs then .ok ((concatenation bs blocks).take n)
      else .error .outOfRange := by
  induction blocks generalizing n with
  | nil =>
    rw [copyBlocks, List.length_nil, Nat.zero_mul]
    by_cases hn : n = 0
    · rw [if_pos hn, if_pos (Nat.le_of_eq hn), hn, List.take_zero]
    · rw [if_neg hn, if_neg fun h => hn (Nat.le_zero.mp h)]
  | cons block blocks ih =>
    rw [copyBlocks, List.length_cons, Nat.succ_mul, concatenation, List.flatMap_cons]
    by_cases hn : bs < n
    · -- a whole block, and then the others
      rw [if_pos hn, ih]
      by_cases h_fits : n - bs ≤ blocks.length * bs
      · have h_take : (memcpy block bs).take n = memcpy block bs :=
          List.take_of_length_le (by rw [length_memcpy]; exact Nat.le_of_lt hn)
        rw [if_pos h_fits, if_pos (by omega), ok_bind, List.take_append, length_memcpy, h_take]
        rfl
      · rw [if_neg h_fits, if_neg (by omega)]
        rfl
    · -- the rest is within the block
      have h_le : n ≤ bs := Nat.le_of_not_lt hn
      rw [if_neg hn, if_pos (by omega),
        List.take_append_of_le_length (by rw [length_memcpy]; exact h_le), take_memcpy h_le]
      rfl

/-- **At the beginning of a block** `copy` copies what it should. -/
theorem copy_aligned {content : FileContent} {n offset : ℕ}
    (h_aligned : offset % bs = 0) :
    copy bs content n offset
      = if n ≤ (content.blocks.length - offset / bs) * bs then
          .ok (((concatenation bs content.blocks).drop offset).take n)
        else .error .outOfRange := by
  rw [copy, if_neg (by simpa using h_aligned), copyBlocks_eq, List.length_drop,
    drop_concatenation, h_aligned, List.drop_zero]

/-! ### Within a block -/

/-- The reads from `offset` on, of `n` bytes, that go well: of the blocks from the one of the offset on,
enough are where the wrong pieces are taken from. -/
inductive Arranged (bs : ℕ) (blocks : List ℤ) (n offset : ℕ) : Prop where
  /-- The offset is at the beginning of a block. -/
  | aligned (h_aligned : offset % bs = 0)
  /-- The read stays within the block, and is shorter than what is before it there. -/
  | short (h_short : n < offset % bs) (h_within : offset % bs + n ≤ bs)
  /-- It is as short, and goes on in the next block, which follows in the image. -/
  | adjacent (h_short : n < offset % bs)
      (h_next : blocks[offset / bs + 1]? = blocks[offset / bs]?.map fun block : ℤ => block + bs)
  /-- It is as long as `q` blocks are, which follow one another in the image, and the block behind them is
  the second of them. A single block is always like this. -/
  | whole (q : ℕ) (h_pos : 0 < q) (h_whole : n = q * bs)
      (h_follow : ∀ j < q, blocks[offset / bs + j]?
        = blocks[offset / bs]?.map fun block : ℤ => block + (j * bs : ℕ))
      (h_last : blocks[offset / bs + q]? = blocks[offset / bs + 1]?)
  /-- It stays within the block, and the next block begins in the middle of this one. -/
  | overlapping (h_long : offset % bs ≤ n) (h_within : offset % bs + n ≤ bs)
      (h_next : blocks[offset / bs + 1]? = blocks[offset / bs]?.map fun block : ℤ => block + n)

/-- A single `memcpy`, of `n` bytes that begin `r` bytes behind the beginning of the block. -/
theorem memcpy_eq_iff {block : ℤ} {blocks : List ℤ} {r n : ℕ} (h_lt : r < bs) (h_short : n < r) :
    memcpy (block + r) n = ((concatenation bs (block :: blocks)).drop r).take n
      ↔ r + n ≤ bs ∨ blocks[0]? = some (block + bs) := by
  have h_bs : 0 < bs := Nat.zero_lt_of_lt h_lt
  have h_iff := eq_take_drop_iff (s := memcpy (block + r) n) (l := concatenation bs (block :: blocks))
    (r := r)
  rw [length_memcpy] at h_iff
  rw [h_iff]
  constructor
  · intro h
    by_cases h_within : r + n ≤ bs
    · exact .inl h_within
    · -- the first byte of the next block
      have h_first := h (bs - r) (by omega)
      rw [getElem?_memcpy (by omega), Nat.add_sub_cancel' (Nat.le_of_lt h_lt),
        getElem?_concatenation h_bs, Nat.div_self h_bs, Nat.mod_self, List.getElem?_cons_succ] at h_first
      obtain ⟨next, h_next, h_eq⟩ := Option.map_eq_some_iff.mp h_first
      exact .inr (h_next.trans (congrArg some (by omega)))
  · intro h i hi
    rw [getElem?_memcpy hi, getElem?_concatenation h_bs]
    by_cases h_block : r + i < bs
    · rw [Nat.div_eq_of_lt h_block, Nat.mod_eq_of_lt h_block, List.getElem?_cons_zero, Option.map_some]
      exact congrArg some (by omega)
    · have h_next := h.resolve_left (by omega)
      have h_div : (r + i) / bs = 1 :=
        Nat.div_eq_of_lt_le (by omega) (by omega)
      have h_mod : (r + i) % bs = r + i - bs := by
        rw [Nat.mod_eq_sub_mod (by omega), Nat.mod_eq_of_lt (by omega)]
      rw [h_div, h_mod, List.getElem?_cons_succ, h_next, Option.map_some]
      exact congrArg some (by omega)

/-- Position by position, what the two `memcpy`s give is: up to `n`, what follows `block` in the image,
and then the beginning of the next block. -/
theorem memcpy_append_eq_iff {block next : ℤ} {blocks : List ℤ} {r n : ℕ} (h_long : r ≤ n) :
    memcpy (block + r) (n - r) ++ memcpy next r = ((concatenation bs blocks).drop r).take n
      ↔ (∀ p, r ≤ p → p < n → (concatenation bs blocks)[p]? = some (block + p))
        ∧ ∀ i < r, (concatenation bs blocks)[n + i]? = some (next + i) := by
  have h_len : (memcpy (block + r) (n - r) ++ memcpy next r).length = n := by
    rw [List.length_append, length_memcpy, length_memcpy, Nat.sub_add_cancel h_long]
  have h_iff := eq_take_drop_iff (s := memcpy (block + r) (n - r) ++ memcpy next r)
    (l := concatenation bs blocks) (r := r)
  rw [h_len] at h_iff
  -- the two parts position by position, counted from the beginning of what was copied
  have h_front : ∀ i < n - r,
      (memcpy (block + r) (n - r) ++ memcpy next r)[i]? = some (block + (r + i : ℕ)) := by
    intro i hi
    rw [List.getElem?_append_left (by rwa [length_memcpy]), getElem?_memcpy hi]
    exact congrArg some (by omega)
  have h_back : ∀ i < r,
      (memcpy (block + r) (n - r) ++ memcpy next r)[n - r + i]? = some (next + i) := by
    intro i hi
    rw [List.getElem?_append_right (by rw [length_memcpy]; omega), length_memcpy,
      Nat.add_sub_cancel_left, getElem?_memcpy hi]
  rw [h_iff]
  constructor
  · intro h
    constructor
    · -- a position within the first block
      intro p h_le hp
      have h_at := h (p - r) (by omega)
      rw [h_front (p - r) (by omega), Nat.add_sub_cancel' h_le] at h_at
      exact h_at
    · -- a position behind it; the copy begins at `r`, so it is shifted by that
      intro i hi
      have h_at := h (n - r + i) (by omega)
      rwa [h_back i hi, ← Nat.add_assoc, Nat.add_sub_cancel' h_long] at h_at
  · rintro ⟨h_first, h_second⟩ i hi
    by_cases h_lt : i < n - r
    · rw [h_front i h_lt]
      exact h_first (r + i) (Nat.le_add_right r i) (by omega)
    · obtain ⟨j, rfl⟩ := Nat.exists_eq_add_of_le (Nat.le_of_not_lt h_lt)
      rw [h_back j (by omega), ← Nat.add_assoc, Nat.add_sub_cancel' h_long]
      exact h_second j (by omega)

/-- **Where the two `memcpy`s give what they should**: the read is as long as a number of blocks that
follow one another, or the next block begins within this one. -/
theorem split_eq_iff {block next : ℤ} {blocks : List ℤ} {r n : ℕ} (h_pos : 0 < r) (h_lt : r < bs)
    (h_long : r ≤ n) (h_next : blocks[1]? = some next) (h_block : blocks[0]? = some block) :
    memcpy (block + r) (n - r) ++ memcpy next r = ((concatenation bs blocks).drop r).take n
      ↔ (∃ q, 0 < q ∧ n = q * bs ∧ (∀ j < q, blocks[j]? = some (block + (j * bs : ℕ)))
            ∧ blocks[q]? = blocks[1]?)
        ∨ r + n ≤ bs ∧ next = block + n := by
  have h_bs : 0 < bs := Nat.zero_lt_of_lt h_lt
  rw [memcpy_append_eq_iff h_long]
  constructor
  · rintro ⟨h_first, h_second⟩
    -- each block that begins before `n` is where it follows the first one
    have h_follow : ∀ j, j * bs < n → blocks[j]? = some (block + (j * bs : ℕ)) := by
      intro j hj
      cases j with
      | zero => rw [h_block, Nat.zero_mul]; exact congrArg some (by omega)
      | succ j =>
        have h_at := h_first ((j + 1) * bs) (by rw [Nat.succ_mul]; omega) hj
        rw [getElem?_concatenation h_bs, Nat.mul_div_cancel _ h_bs, Nat.mul_mod_left] at h_at
        obtain ⟨a, ha, h_eq⟩ := Option.map_eq_some_iff.mp h_at
        exact ha.trans (congrArg some (by omega))
    -- the last piece begins at `n`, with the first byte of the next block
    have h_last := h_second 0 h_pos
    rw [Nat.add_zero, getElem?_concatenation h_bs] at h_last
    obtain ⟨last, h_at, h_eq⟩ := Option.map_eq_some_iff.mp h_last
    have h_n : n = n / bs * bs + n % bs := by rw [Nat.mul_comm, Nat.div_add_mod]
    by_cases h_rest : n % bs = 0
    · refine .inl ⟨n / bs, ?_, by omega, fun j hj => ?_, ?_⟩
      · by_contra h_zero
        rw [Nat.eq_zero_of_not_pos h_zero, Nat.zero_mul] at h_n
        omega
      · refine h_follow j (lt_of_lt_of_le (Nat.mul_lt_mul_of_pos_right hj h_bs) ?_)
        omega
      · rw [h_at, h_next]
        exact congrArg some (by omega)
    · -- `n` is within a block, which has to be the first one
      have h_here := h_follow (n / bs) (by omega)
      rw [h_at, Option.some.injEq] at h_here
      have h_mod := Nat.mod_lt n h_bs
      have h_first_block : n / bs = 0 := by
        by_contra h_some
        have h_le : bs ≤ n / bs * bs := Nat.le_mul_of_pos_left bs (Nat.pos_of_ne_zero h_some)
        have h_second_block := h_follow 1 (by omega)
        rw [h_next, Option.some.injEq] at h_second_block
        omega
      rw [h_first_block] at h_here h_n
      refine .inr ⟨?_, by omega⟩
      by_contra h_over
      have h_end := h_second (bs - n) (by omega)
      rw [Nat.add_sub_cancel' (by omega), getElem?_concatenation h_bs, Nat.div_self h_bs, Nat.mod_self,
        h_next, Option.map_some, Option.some.injEq] at h_end
      omega
  · rintro (⟨q, h_q, rfl, h_follow, h_last⟩ | ⟨h_within, rfl⟩)
    · constructor
      · intro p _ hp
        rw [getElem?_concatenation h_bs, h_follow (p / bs) (Nat.div_lt_of_lt_mul (by rwa [Nat.mul_comm])),
          Option.map_some]
        have h_p : p = p / bs * bs + p % bs := by rw [Nat.mul_comm, Nat.div_add_mod]
        exact congrArg some (by omega)
      · intro i hi
        have h_div : (q * bs + i) / bs = q := by
          rw [Nat.mul_comm, Nat.mul_add_div h_bs, Nat.div_eq_of_lt (Nat.lt_trans hi h_lt), Nat.add_zero]
        have h_mod : (q * bs + i) % bs = i := by
          rw [Nat.mul_add_mod_of_lt (Nat.lt_trans hi h_lt)]
        rw [getElem?_concatenation h_bs, h_div, h_mod, h_last, h_next, Option.map_some]
    · constructor
      · intro p _ hp
        rw [getElem?_concatenation h_bs, Nat.div_eq_of_lt (by omega), Nat.mod_eq_of_lt (by omega),
          h_block, Option.map_some]
      · intro i hi
        rw [getElem?_concatenation h_bs, Nat.div_eq_of_lt (by omega), Nat.mod_eq_of_lt (by omega),
          h_block, Option.map_some]
        exact congrArg some (by omega)

section Copy

variable {content : FileContent} {n offset : ℕ} {block : ℤ}

/-- Fewer bytes than there are before the offset in the block: the subtraction wraps around, and all of
them are copied from behind the offset. -/
theorem copy_short (h_offset : offset < 0x10000000000000000)
    (h_block : content.blocks[offset / bs]? = some block) (h_short : n < offset % bs) :
    copy bs content n offset = .ok (memcpy (block + (offset % bs : ℕ)) n) := by
  have h_le : offset % bs ≤ offset := Nat.mod_le offset bs
  have h_copy : min n ((n + 0x10000000000000000 - offset % bs) % 0x10000000000000000) = n := by
    rw [Nat.mod_eq_of_lt (by omega)]
    omega
  rw [copy, if_pos (Nat.ne_of_gt (Nat.zero_lt_of_lt h_short)), h_copy, h_block]
  change (copyBlocks bs _ (n - n) >>= _) = _
  rw [Nat.sub_self, copyBlocks_eq, if_pos (Nat.zero_le _), ok_bind, List.take_zero, List.append_nil]
  rfl

/-- Else that many of them are copied from the beginning of the next block. -/
theorem copy_long_eq_ok_iff (h_n : n < 0x10000000000000000) (h_pos : 0 < offset % bs)
    (h_block : content.blocks[offset / bs]? = some block) (h_lt : offset % bs < bs)
    (h_long : offset % bs ≤ n) {copied : List ℤ} :
    copy bs content n offset = .ok copied ↔ ∃ next, content.blocks[offset / bs + 1]? = some next
      ∧ copied = memcpy (block + (offset % bs : ℕ)) (n - offset % bs) ++ memcpy next (offset % bs) := by
  -- the subtraction does not wrap around here
  have h_copy : min n ((n + 0x10000000000000000 - offset % bs) % 0x10000000000000000)
      = n - offset % bs := by
    rw [show n + 0x10000000000000000 - offset % bs = n - offset % bs + 0x10000000000000000 by omega,
      Nat.add_mod_right, Nat.mod_eq_of_lt (by omega)]
    omega
  -- what is left is less than a block, so the loop does not run
  have h_rest : copy bs content n offset
      = copyBlocks bs (content.blocks.drop (offset / bs + 1)) (offset % bs) >>= fun rest =>
        .ok (memcpy (block + (offset % bs : ℕ)) (n - offset % bs) ++ rest) := by
    rw [copy, if_pos (Nat.ne_of_gt h_pos), h_copy, h_block]
    change (copyBlocks bs _ (n - (n - offset % bs)) >>= _) = _
    rw [Nat.sub_sub_self h_long]
    rfl
  rw [h_rest, bind_eq_ok_iff, ← List.head?_drop]
  cases content.blocks.drop (offset / bs + 1) with
  | nil =>
    -- there is no next block
    rw [copyBlocks, if_neg (Nat.ne_of_gt h_pos)]
    constructor
    · rintro ⟨rest, h_error, -⟩
      cases h_error
    · rintro ⟨next, h_none, -⟩
      cases h_none
  | cons next blocks =>
    rw [copyBlocks, if_neg (Nat.not_lt_of_gt h_lt)]
    constructor
    · rintro ⟨rest, h_ok, h_eq⟩
      refine ⟨next, rfl, ?_⟩
      rw [← Except.ok.inj h_eq, Except.ok.inj h_ok]
    · rintro ⟨next', h_next, rfl⟩
      obtain rfl : next = next' := Option.some.inj h_next
      exact ⟨_, rfl, rfl⟩

/-- **What `copy` copies is what it should** just for the reads that are `Arranged`. -/
theorem copy_right_iff (h_bs : 0 < bs) (h_n : n < 0x10000000000000000)
    (h_offset : offset < 0x10000000000000000) (h_block : offset / bs < content.blocks.length)
    (h_fits : offset + n ≤ content.blocks.length * bs) :
    copy bs content n offset = .ok (((concatenation bs content.blocks).drop offset).take n)
      ↔ Arranged bs content.blocks n offset := by
  have h_lt : offset % bs < bs := Nat.mod_lt offset h_bs
  have h_div : offset = offset / bs * bs + offset % bs := by rw [Nat.mul_comm, Nat.div_add_mod]
  by_cases h_aligned : offset % bs = 0
  · -- at the beginning of a block nothing goes wrong
    have h_enough : n ≤ (content.blocks.length - offset / bs) * bs := by
      rw [Nat.sub_mul]
      omega
    rw [copy_aligned h_aligned, if_pos h_enough]
    exact ⟨fun _ => .aligned h_aligned, fun _ => rfl⟩
  have h_pos : 0 < offset % bs := Nat.pos_of_ne_zero h_aligned
  -- the blocks from that of the offset on
  obtain ⟨block, blocks, h_drop⟩ : ∃ block blocks, content.blocks.drop (offset / bs) = block :: blocks :=
    List.exists_cons_of_ne_nil (List.drop_eq_nil_iff.not.mpr (Nat.not_le_of_gt h_block))
  have h_at : ∀ j, content.blocks[offset / bs + j]? = (block :: blocks)[j]? := by
    intro j
    rw [← h_drop, List.getElem?_drop]
  have h_here : content.blocks[offset / bs]? = some block := h_at 0
  rw [drop_concatenation, h_drop]
  rcases Nat.lt_or_ge n (offset % bs) with h_short | h_long
  · rw [copy_short h_offset h_here h_short, Except.ok.injEq, memcpy_eq_iff h_lt h_short]
    have h_next : blocks[0]? = content.blocks[offset / bs + 1]? := (h_at 1).symm
    rw [h_next]
    constructor
    · rintro (h_within | h_adjacent)
      · exact .short h_short h_within
      · exact .adjacent h_short (by rw [h_here, h_adjacent]; rfl)
    · intro h
      cases h with
      | aligned h => exact absurd h h_aligned
      | short _ h_within => exact .inl h_within
      | adjacent _ h_adjacent => exact .inr (by rw [h_adjacent, h_here]; rfl)
      | whole q h_q h_whole =>
        have h_le : bs ≤ q * bs := Nat.le_mul_of_pos_left bs h_q
        omega
      | overlapping h => omega
  · rw [copy_long_eq_ok_iff h_n h_pos h_here h_lt h_long]
    constructor
    · rintro ⟨next, h_next, h_eq⟩
      have h_second : (block :: blocks)[1]? = some next := (h_at 1).symm.trans h_next
      rcases (split_eq_iff h_pos h_lt h_long h_second rfl).mp h_eq.symm with
        ⟨q, h_q, h_whole, h_follow, h_last⟩ | ⟨h_within, h_overlap⟩
      · refine .whole q h_q h_whole (fun j hj => ?_) ?_
        · rw [h_at, h_follow j hj, h_here]
          rfl
        · rw [h_at, h_last, h_at]
      · exact .overlapping h_long h_within (by rw [h_next, h_here, h_overlap]; rfl)
    · intro h
      cases h with
      | aligned h => exact absurd h h_aligned
      | short h => omega
      | adjacent h => omega
      | whole q h_q h_whole h_follow h_last =>
        -- the read ends behind the block that it begins in
        have h_more : offset / bs + 1 < content.blocks.length := by
          by_contra h_end
          have h_le : content.blocks.length * bs ≤ (offset / bs + 1) * bs :=
            Nat.mul_le_mul_right bs (Nat.le_of_not_lt h_end)
          have h_one : bs ≤ q * bs := Nat.le_mul_of_pos_left bs h_q
          rw [Nat.succ_mul] at h_le
          omega
        obtain ⟨next, h_next⟩ : ∃ next, content.blocks[offset / bs + 1]? = some next :=
          ⟨_, List.getElem?_eq_getElem h_more⟩
        have h_second : (block :: blocks)[1]? = some next := (h_at 1).symm.trans h_next
        refine ⟨next, h_next, Eq.symm ?_⟩
        rw [split_eq_iff h_pos h_lt h_long h_second rfl]
        refine .inl ⟨q, h_q, h_whole, fun j hj => ?_, ?_⟩
        · rw [← h_at, h_follow j hj, h_here]
          rfl
        · rw [← h_at, h_last, h_at]
      | overlapping _ h_within h_overlap =>
        rw [h_here, Option.map_some] at h_overlap
        have h_second : (block :: blocks)[1]? = some (block + n) := (h_at 1).symm.trans h_overlap
        refine ⟨block + n, h_overlap, Eq.symm ?_⟩
        rw [split_eq_iff h_pos h_lt h_long h_second rfl]
        exact .inr ⟨h_within, rfl⟩

end Copy

/-! ### `Read` -/

/-- Positions that hold the same in every image are the same. -/
theorem eq_of_map_image_eq {s l : List ℤ} (h : ∀ image : ℤ → UInt8, s.map image = l.map image) :
    s = l := by
  refine List.ext_getElem? fun i => ?_
  -- the image that is 1 where the element of `s` points to, and 0 elsewhere
  have h_at := congrArg (·[i]?) (h fun a => if s[i]? = some a then 1 else 0)
  simp only [List.getElem?_map] at h_at
  rcases hs : s[i]? with _ | a
  · rw [hs, Option.map_none] at h_at
    exact (Option.map_eq_none_iff.mp h_at.symm).symm
  · rw [hs, Option.map_some, if_pos rfl] at h_at
    obtain ⟨a', ha', h_eq⟩ := Option.map_eq_some_iff.mp h_at.symm
    by_cases h_same : a = a'
    · rw [ha', h_same]
    · rw [if_neg fun h_some => h_same (Option.some.inj h_some)] at h_eq
      exact absurd h_eq (by decide)

/-- `Read` of a file with these contents returns how many bytes there are to read; it copies just these
bytes, whatever is in the image, and nothing that is in no block is touched. -/
def ReadsRight (bs : ℕ) (content : FileContent) (size offset : ℕ) : Prop :=
  ∃ copied, read bs content size offset = .ok ((min size (content.size - offset) : ℕ), copied)
    ∧ (∀ a ∈ copied, ∃ block ∈ content.blocks, block ≤ a ∧ a < block + bs)
    ∧ ∀ image : ℤ → UInt8, copied.map image = (((content.blocks.flatMap fun block =>
        (memcpy block bs).map image).drop offset).take (min size (content.size - offset)))

variable {content : FileContent} {size offset : ℕ}

/-- As what is copied is right in every image, it is the bytes of the blocks. -/
theorem readsRight_iff_eq :
    ReadsRight bs content size offset ↔ read bs content size offset
      = .ok ((min size (content.size - offset) : ℕ),
          ((concatenation bs content.blocks).drop offset).take (min size (content.size - offset))) := by
  have h_map : ∀ image : ℤ → UInt8, (content.blocks.flatMap fun block => (memcpy block bs).map image)
      = (concatenation bs content.blocks).map image := by
    intro image
    rw [concatenation, List.map_flatMap]
  constructor
  · rintro ⟨copied, h_read, -, h_image⟩
    rw [h_read, eq_of_map_image_eq (s := copied) fun image => ?_]
    rw [h_image image, h_map image, ← List.map_drop, ← List.map_take]
  · intro h_read
    refine ⟨_, h_read, fun a ha => ?_, fun image => ?_⟩
    · exact exists_block_of_mem (List.mem_of_mem_drop (List.mem_of_mem_take ha))
    · rw [h_map image, ← List.map_drop, ← List.map_take]

/-- A `size_t` that is an `ssize_t`. -/
theorem toSsize_of_lt {n : ℕ} (h : n < 0x8000000000000000) : toSsize n = n :=
  Int.bmod_eq_of_le (by omega) (by omega)

/-- A `size_t` that is none becomes negative. -/
theorem toSsize_neg {n : ℕ} (h : 0x8000000000000000 ≤ n) (h_lt : n < 0x10000000000000000) :
    toSsize n < 0 := by
  unfold toSsize Int.bmod
  dsimp only
  split <;> omega

/-- **A read gives what it should** just at the end of the file and behind it, and where the sum of offset
and size does not wrap around, for the reads that are `Arranged`. -/
theorem readsRight_iff (h_bs : 0 < bs) (h_within : content.size ≤ content.blocks.length * bs)
    (h_content : content.size < 0x8000000000000000) (h_size : size < 0x10000000000000000)
    (h_offset : offset < 0x8000000000000000) :
    ReadsRight bs content size offset ↔ content.size ≤ offset ∨ offset + size < 0x10000000000000000
      ∧ Arranged bs content.blocks (min size (content.size - offset)) offset := by
  rw [readsRight_iff_eq]
  rcases Nat.lt_or_ge offset content.size with h_before | h_end
  · -- within the file
    have h_block : offset / bs < content.blocks.length :=
      Nat.div_lt_of_lt_mul (by rw [Nat.mul_comm]; omega)
    rw [read, if_pos (by rw [toSsize_of_lt h_content]; omega), or_iff_right (by omega)]
    by_cases h_wrap : offset + size < 0x10000000000000000
    · -- the size is cut to what is left of the file
      have h_size' : (if content.size < (offset + size) % 0x10000000000000000 then content.size - offset
          else size) = min size (content.size - offset) := by
        rw [Nat.mod_eq_of_lt h_wrap]
        split <;> omega
      have h_ssize : toSsize (min size (content.size - offset))
          = (min size (content.size - offset) : ℕ) := toSsize_of_lt (by omega)
      rw [and_iff_right h_wrap, h_size', ← copy_right_iff h_bs (by omega) (by omega) h_block (by omega),
        bind_eq_ok_iff]
      constructor
      · rintro ⟨copied, h_copy, h_eq⟩
        obtain ⟨-, h_copied⟩ := Prod.mk.inj (Except.ok.inj h_eq)
        rw [h_copy, h_copied]
      · intro h_copy
        exact ⟨_, h_copy, by rw [h_ssize]; rfl⟩
    · -- the size is left as it is, and what is returned is negative
      have h_size' : (if content.size < (offset + size) % 0x10000000000000000 then content.size - offset
          else size) = size := if_neg (by omega)
      rw [h_size']
      refine iff_of_false (fun h => ?_) fun h => h_wrap h.1
      obtain ⟨copied, -, h_eq⟩ := bind_eq_ok_iff.mp h
      obtain ⟨h_return, -⟩ := Prod.mk.inj (Except.ok.inj h_eq)
      have h_negative : toSsize size < 0 := toSsize_neg (by omega) h_size
      omega
  · -- at the end of the file and behind it
    have h_none : min size (content.size - offset) = 0 := by omega
    rw [read, if_neg (by rw [toSsize_of_lt h_content]; omega), h_none]
    exact iff_of_true rfl (.inl h_end)

/-- A whole block is read from the middle of a block on. -/
theorem readsRight_block : ReadsRight 1024 ⟨2048, [20480, 40960]⟩ 1024 512 := by
  refine (readsRight_iff (by decide) (by decide) (by decide) (by decide) (by decide)).mpr (.inr ⟨by decide, ?_⟩)
  refine .whole 1 (by decide) (by decide) (fun j hj => ?_) rfl
  obtain rfl := Nat.lt_one_iff.mp hj
  rfl

/-- The second and the third byte of a file are read, which are both in its first block: the third byte
is taken from the second block. -/
theorem not_readsRight_two : ¬ ReadsRight 1024 ⟨2048, [20480, 40960]⟩ 2 1 := by
  rw [readsRight_iff_eq]
  decide +kernel

end GitlstreeFS.Ext2
