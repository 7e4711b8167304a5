import GitlstreeFS.Base64.RoundTrip

/-!
# Characters outside the alphabet

`doit` skips the characters that have no value. Two kinds of characters outside the alphabet are not
skipped. One that is negative as a `char` is no index of the table. And the NUL has a value, since the
table was filled one entry too far: 64, which is a bit of the value before it in the round.

A NUL adds a value, and so the output keeps its length only if there is one NUL and the values without
it come to whole rounds. It then moves the values behind it by one place, and sets the last bit of the
value before it: `groups_nul_iff` says when nobody sees that, and `ignores_iff` what texts this makes.
-/

namespace GitlstreeFS.Base64

/-! ### Rounds -/

variable {a b c d a' b' c' d' x : ℕ} {A B X Y : List ℕ}

/-- Values of characters of the alphabet. -/
def Plain (ts : List ℕ) : Prop :=
  ∀ t ∈ ts, t < 64

theorem plain_cons : Plain (a :: A) ↔ a < 64 ∧ Plain A :=
  List.forall_mem_cons

theorem length_groups (ts : List ℕ) : (groups ts).length = 3 * ts.length / 4 := by
  fun_induction groups ts with
  | case1 a b c d ts ih =>
    rw [List.length_append, ih, output_four]
    simp only [List.length_cons, List.length_nil]
    omega
  | case2 ts h_short =>
    have h_lt : ts.length < 4 := by
      by_contra h_ge
      match ts with
      | [] | [_] | [_, _] | [_, _, _] => simp at h_ge
      | a :: b :: c :: d :: ts => exact h_short a b c d ts rfl
    rw [output, List.length_map, List.length_range]
    omega

/-- The bytes of a round say what its values were. -/
theorem output_inj (ha : a < 64) (hb : b < 64) (hc : c < 64) (hd : d < 64) (ha' : a' < 64)
    (hb' : b' < 64) (hc' : c' < 64) (hd' : d' < 64)
    (h : output 4 (gather 0 0 [a, b, c, d]) = output 4 (gather 0 0 [a', b', c', d'])) :
    a = a' ∧ b = b' ∧ c = c' ∧ d = d' := by
  rw [gather_eq hb hc hd, gather_eq hb' hc' hd', output_four, output_four] at h
  obtain ⟨h₁, h⟩ := List.cons.inj h
  obtain ⟨h₂, h⟩ := List.cons.inj h
  obtain ⟨h₃, -⟩ := List.cons.inj h
  rw [← UInt8.toNat_inj, UInt8.toNat_ofNat', UInt8.toNat_ofNat'] at h₁ h₂ h₃
  omega

/-- Two texts of values with the same output have the same first round, and then the same output. -/
theorem groups_four_iff (h : Plain (a :: b :: c :: d :: X)) (h' : Plain (a' :: b' :: c' :: d' :: Y)) :
    groups (a :: b :: c :: d :: X) = groups (a' :: b' :: c' :: d' :: Y) ↔
      (a = a' ∧ b = b' ∧ c = c' ∧ d = d') ∧ groups X = groups Y := by
  simp only [plain_cons] at h h'
  rw [groups_four, groups_four]
  constructor
  · intro h_eq
    have h_length : ∀ r, (output 4 r).length = 3 := by
      intro r
      rw [output_four]
      rfl
    obtain ⟨h_round, h_rest⟩ := List.append_inj h_eq ((h_length _).trans (h_length _).symm)
    exact ⟨output_inj h.1 h.2.1 h.2.2.1 h.2.2.2.1 h'.1 h'.2.1 h'.2.2.1 h'.2.2.2.1 h_round, h_rest⟩
  · rintro ⟨⟨rfl, rfl, rfl, rfl⟩, h_rest⟩
    rw [h_rest]

theorem exists_four {n : ℕ} (h : B.length = n + 4) :
    ∃ b₀ b₁ b₂ b₃ B', B = b₀ :: b₁ :: b₂ :: b₃ :: B' ∧ B'.length = n := by
  match B with
  | [] | [_] | [_, _] | [_, _, _] => simp at h
  | b₀ :: b₁ :: b₂ :: b₃ :: B' => exact ⟨b₀, b₁, b₂, b₃, B', rfl, by simpa using h⟩

/-- Whole rounds that are moved by one place. -/
theorem groups_cons_iff (hx : x < 64) (hB : Plain B) (h_dvd : 4 ∣ B.length) :
    groups (x :: B) = groups B ↔ ∀ t ∈ B, t = x := by
  obtain ⟨q, hq⟩ := h_dvd
  induction q generalizing x B with
  | zero =>
    obtain rfl := List.length_eq_zero_iff.mp hq
    exact iff_of_true rfl fun t ht => absurd ht List.not_mem_nil
  | succ q ih =>
    obtain ⟨b₀, b₁, b₂, b₃, B, rfl, h_length⟩ := exists_four (n := 4 * q) (by omega)
    have h_plain := hB
    simp only [plain_cons] at hB
    have h_moved : Plain (x :: b₀ :: b₁ :: b₂ :: b₃ :: B) := plain_cons.mpr ⟨hx, h_plain⟩
    rw [groups_four_iff h_moved h_plain, ih hB.2.2.2.1 hB.2.2.2.2 h_length]
    simp only [List.forall_mem_cons]
    constructor
    · rintro ⟨⟨rfl, rfl, rfl, rfl⟩, h_rest⟩
      exact ⟨rfl, rfl, rfl, rfl, h_rest⟩
    · rintro ⟨rfl, rfl, rfl, rfl, h_rest⟩
      exact ⟨⟨rfl, rfl, rfl, rfl⟩, h_rest⟩

/-! ### The value of the NUL -/

theorem output_nul_first (hb : b < 64) (hc : c < 64) (hd : d < 64) :
    output 4 (gather 0 0 [64, b, c, d]) = output 4 (gather 0 0 [0, b, c, d]) := by
  have h_byte : ∀ n n' : ℕ, n % 256 = n' % 256 → UInt8.ofNat n = UInt8.ofNat n' := by
    intro n n' h
    rw [← UInt8.toNat_inj, UInt8.toNat_ofNat', UInt8.toNat_ofNat']
    exact h
  rw [gather_eq hb hc hd, gather_eq hb hc hd, output_four, output_four]
  generalize h_n : 0 * 262144 + b * 4096 + c * 64 + d = n
  have h_eq : 64 * 262144 + b * 4096 + c * 64 + d = n + 16777216 := by
    omega
  rw [h_eq, h_byte ((n + 16777216) / 65536) (n / 65536) (by omega),
    h_byte ((n + 16777216) / 256) (n / 256) (by omega), h_byte (n + 16777216) n (by omega)]

/-- In the first place of a round it is lost. -/
theorem groups_nul_first (hX : Plain X) : groups (64 :: X) = groups (0 :: X) := by
  match X with
  | [] => rfl
  | [b] =>
    simp only [plain_cons] at hX
    change output 2 (gather 0 0 [64, b]) = output 2 (gather 0 0 [0, b])
    rw [output_two, output_two, gather_two, gather_two 0,
      output_nul_first hX.1 (by decide) (by decide)]
  | [b, c] =>
    simp only [plain_cons] at hX
    change output 3 (gather 0 0 [64, b, c]) = output 3 (gather 0 0 [0, b, c])
    rw [output_three, output_three, gather_three, gather_three 0,
      output_nul_first hX.1 hX.2.1 (by decide)]
  | b :: c :: d :: X =>
    simp only [plain_cons] at hX
    rw [groups_four, groups_four, output_nul_first hX.1 hX.2.1 hX.2.2.1]

theorem or_one_iff (h : a < 64) : (a ||| 1 = a ↔ a % 2 = 1) ∧ a ||| 1 < 64 := by
  have h_all : ∀ a : Fin 64, (a.val ||| 1 = a.val ↔ a.val % 2 = 1) ∧ a.val ||| 1 < 64 := by
    decide +kernel
  exact h_all ⟨a, h⟩

/-- In any other place it is the last bit of the value before it. -/
theorem gather_nul_second (a c d : ℕ) : gather 0 0 [a, 64, c, d] = gather 0 0 [a ||| 1, 0, c, d] := by
  simp only [gather, Nat.shiftLeft_or_distrib, Nat.zero_shiftLeft, Nat.or_zero, Nat.zero_or]
  rfl

theorem gather_nul_third (a b d : ℕ) : gather 0 0 [a, b, 64, d] = gather 0 0 [a, b ||| 1, 0, d] := by
  simp only [gather, Nat.shiftLeft_or_distrib, Nat.zero_shiftLeft, Nat.or_zero, Nat.zero_or,
    Nat.or_assoc]
  rfl

theorem gather_nul_fourth (a b c : ℕ) : gather 0 0 [a, b, c, 64] = gather 0 0 [a, b, c ||| 1, 0] := by
  simp only [gather, Nat.shiftLeft_or_distrib, Nat.zero_shiftLeft, Nat.or_zero, Nat.zero_or,
    Nat.or_assoc]
  rfl

/-- Nobody sees a NUL between the values `A` and `B`: those behind it are all zero, and it is the
first of a round or the last bit of the value before it is set already. -/
def Unseen (A B : List ℕ) : Prop :=
  (∀ t ∈ B, t = 0) ∧ (4 ∣ A.length ∨ ∃ t ∈ A.getLast?, t % 2 = 1)

/-- A round, and behind it a value that is the last of the other round. -/
theorem groups_moved_iff (h : Plain (a :: b :: c :: d :: x :: B))
    (h' : Plain (a' :: b' :: c' :: d' :: B)) (h_dvd : 4 ∣ B.length) :
    groups (a :: b :: c :: d :: x :: B) = groups (a' :: b' :: c' :: d' :: B) ↔
      (a = a' ∧ b = b' ∧ c = c' ∧ d = d') ∧ ∀ t ∈ B, t = x := by
  rw [groups_four_iff h h']
  simp only [plain_cons] at h
  rw [groups_cons_iff h.2.2.2.2.1 h.2.2.2.2.2 h_dvd]

/-- In the second place of the last round but the moved ones. -/
theorem groups_nul_second (ha : a < 64) (hB : Plain B) (h_dvd : 4 ∣ 1 + B.length) :
    groups (a :: 64 :: B) = groups (a :: B) ↔ Unseen [a] B := by
  match B with
  | [] | [_] | [_, _] => simp only [List.length_cons, List.length_nil] at h_dvd; omega
  | b₀ :: b₁ :: b₂ :: B =>
    have h_round : groups (a :: 64 :: b₀ :: b₁ :: b₂ :: B)
        = groups ((a ||| 1) :: 0 :: b₀ :: b₁ :: b₂ :: B) := by
      rw [groups_four, groups_four, gather_nul_second]
    have h_tail : 4 ∣ B.length := by
      simp only [List.length_cons] at h_dvd
      omega
    have h_odd := or_one_iff ha
    have h_moved : Plain ((a ||| 1) :: 0 :: b₀ :: b₁ :: b₂ :: B) :=
      plain_cons.mpr ⟨h_odd.2, plain_cons.mpr ⟨by decide, hB⟩⟩
    rw [h_round, groups_moved_iff h_moved (plain_cons.mpr ⟨ha, hB⟩) h_tail, h_odd.1]
    simp only [Unseen, List.forall_mem_cons, List.length_cons, List.length_nil, Nat.reduceAdd,
      Nat.reduceDvd, false_or, List.getLast?_singleton, Option.mem_some_iff, exists_eq_left']
    constructor
    · rintro ⟨⟨h_a, rfl, rfl, rfl⟩, h_rest⟩
      exact ⟨⟨rfl, rfl, rfl, h_rest⟩, h_a⟩
    · rintro ⟨⟨rfl, rfl, rfl, h_rest⟩, h_a⟩
      exact ⟨⟨h_a, rfl, rfl, rfl⟩, h_rest⟩

theorem groups_nul_third (ha : a < 64) (hb : b < 64) (hB : Plain B) (h_dvd : 4 ∣ 2 + B.length) :
    groups (a :: b :: 64 :: B) = groups (a :: b :: B) ↔ Unseen [a, b] B := by
  match B with
  | [] | [_] => simp only [List.length_cons, List.length_nil] at h_dvd; omega
  | b₀ :: b₁ :: B =>
    have h_round : groups (a :: b :: 64 :: b₀ :: b₁ :: B)
        = groups (a :: (b ||| 1) :: 0 :: b₀ :: b₁ :: B) := by
      rw [groups_four, groups_four, gather_nul_third]
    have h_tail : 4 ∣ B.length := by
      simp only [List.length_cons] at h_dvd
      omega
    have h_odd := or_one_iff hb
    have h_moved : Plain (a :: (b ||| 1) :: 0 :: b₀ :: b₁ :: B) :=
      plain_cons.mpr ⟨ha, plain_cons.mpr ⟨h_odd.2, plain_cons.mpr ⟨by decide, hB⟩⟩⟩
    have h_right : Plain (a :: b :: b₀ :: b₁ :: B) :=
      plain_cons.mpr ⟨ha, plain_cons.mpr ⟨hb, hB⟩⟩
    rw [h_round, groups_moved_iff h_moved h_right h_tail, h_odd.1]
    simp only [Unseen, List.forall_mem_cons, List.length_cons, List.length_nil, Nat.reduceAdd,
      Nat.reduceDvd, false_or, List.getLast?_cons_cons, List.getLast?_singleton, Option.mem_some_iff,
      exists_eq_left', true_and]
    constructor
    · rintro ⟨⟨h_b, rfl, rfl⟩, h_rest⟩
      exact ⟨⟨rfl, rfl, h_rest⟩, h_b⟩
    · rintro ⟨⟨rfl, rfl, h_rest⟩, h_b⟩
      exact ⟨⟨h_b, rfl, rfl⟩, h_rest⟩

theorem groups_nul_fourth (ha : a < 64) (hb : b < 64) (hc : c < 64) (hB : Plain B)
    (h_dvd : 4 ∣ 3 + B.length) :
    groups (a :: b :: c :: 64 :: B) = groups (a :: b :: c :: B) ↔ Unseen [a, b, c] B := by
  match B with
  | [] => simp only [List.length_nil] at h_dvd; omega
  | b₀ :: B =>
    have h_round : groups (a :: b :: c :: 64 :: b₀ :: B)
        = groups (a :: b :: (c ||| 1) :: 0 :: b₀ :: B) := by
      rw [groups_four, groups_four, gather_nul_fourth]
    have h_tail : 4 ∣ B.length := by
      simp only [List.length_cons] at h_dvd
      omega
    have h_odd := or_one_iff hc
    have h_moved : Plain (a :: b :: (c ||| 1) :: 0 :: b₀ :: B) :=
      plain_cons.mpr ⟨ha, plain_cons.mpr ⟨hb, plain_cons.mpr ⟨h_odd.2,
        plain_cons.mpr ⟨by decide, hB⟩⟩⟩⟩
    have h_right : Plain (a :: b :: c :: b₀ :: B) :=
      plain_cons.mpr ⟨ha, plain_cons.mpr ⟨hb, plain_cons.mpr ⟨hc, hB⟩⟩⟩
    rw [h_round, groups_moved_iff h_moved h_right h_tail, h_odd.1]
    simp only [Unseen, List.forall_mem_cons, List.length_cons, List.length_nil, Nat.reduceAdd,
      Nat.reduceDvd, false_or, List.getLast?_cons_cons, List.getLast?_singleton, Option.mem_some_iff,
      exists_eq_left', true_and]
    constructor
    · rintro ⟨⟨h_c, rfl⟩, h_rest⟩
      exact ⟨⟨rfl, h_rest⟩, h_c⟩
    · rintro ⟨⟨rfl, h_rest⟩, h_c⟩
      exact ⟨⟨h_c, rfl⟩, h_rest⟩

/-- **A NUL among whole rounds.** -/
theorem groups_nul_iff (hA : Plain A) (hB : Plain B) (h_dvd : 4 ∣ A.length + B.length) :
    groups (A ++ 64 :: B) = groups (A ++ B) ↔ Unseen A B := by
  induction A using groups.induct with
  | case1 a b c d A ih =>
    -- the round before it is the same
    simp only [plain_cons] at hA
    have h_rest : 4 ∣ A.length + B.length := by
      simp only [List.length_cons] at h_dvd
      omega
    have h_unseen : Unseen (a :: b :: c :: d :: A) B ↔ Unseen A B := by
      have h_length : 4 ∣ (a :: b :: c :: d :: A).length ↔ 4 ∣ A.length := by
        simp only [List.length_cons]
        omega
      unfold Unseen
      rw [h_length]
      refine and_congr_right fun _ => ?_
      cases A with
      | nil => simp
      | cons a' A => simp
    rw [h_unseen, ← ih hA.2.2.2.2 h_rest]
    change groups (a :: b :: c :: d :: (A ++ 64 :: B)) = groups (a :: b :: c :: d :: (A ++ B)) ↔ _
    rw [groups_four, groups_four]
    exact List.append_right_inj _
  | case2 A h_short =>
    -- the NUL comes as one of the four of a round, and the rounds behind it are shifted
    match A with
    | [] =>
      change groups (64 :: B) = groups B ↔ _
      rw [groups_nul_first hB, groups_cons_iff (by decide) hB (by simpa using h_dvd)]
      simp [Unseen]
    | [a] =>
      simp only [plain_cons] at hA
      exact groups_nul_second hA.1 hB h_dvd
    | [a, b] =>
      simp only [plain_cons] at hA
      exact groups_nul_third hA.1 hA.2.1 hB h_dvd
    | [a, b, c] =>
      simp only [plain_cons] at hA
      exact groups_nul_fourth hA.1 hA.2.1 hA.2.2.1 hB h_dvd
    | a :: b :: c :: d :: A => exact absurd rfl (h_short a b c d A)

/-- **The first NUL.** The output is the same without the NULs just if there is no other, the other
values come to whole rounds, and nobody sees it. -/
theorem groups_filter_iff (hA : Plain A) (hB : ∀ t ∈ B, t ≤ 64) :
    groups (A ++ 64 :: B) = groups ((A ++ 64 :: B).filter (· < 64)) ↔
      64 ∉ B ∧ 4 ∣ A.length + B.length ∧ Unseen A B := by
  have h_filter : (A ++ 64 :: B).filter (· < 64) = A ++ B.filter (· < 64) := by
    have h_A : A.filter (· < 64) = A := List.filter_eq_self.mpr fun t ht => decide_eq_true (hA t ht)
    rw [List.filter_append, h_A, List.filter_cons_of_neg (by decide)]
  have h_self : 64 ∉ B → B.filter (· < 64) = B := by
    intro h
    refine List.filter_eq_self.mpr fun t ht => decide_eq_true ?_
    have h_le := hB t ht
    have h_ne : t ≠ 64 := fun h_eq => h (h_eq ▸ ht)
    omega
  have h_plain : 64 ∉ B → Plain B := by
    intro h t ht
    have h_le := hB t ht
    have h_ne : t ≠ 64 := fun h_eq => h (h_eq ▸ ht)
    omega
  rw [h_filter]
  constructor
  · intro h
    -- the lengths of the outputs are the same
    have h_length := congrArg List.length h
    have h_le := List.length_filter_le (· < 64) B
    rw [length_groups, length_groups, List.length_append, List.length_append, List.length_cons]
      at h_length
    have h_all : (B.filter (· < 64)).length = B.length := by omega
    have h_notMem : 64 ∉ B := by
      intro h_mem
      have h_lt := of_decide_eq_true (List.length_filter_eq_length_iff.mp h_all 64 h_mem)
      exact absurd h_lt (by decide)
    have h_dvd : 4 ∣ A.length + B.length := by omega
    rw [h_self h_notMem] at h
    exact ⟨h_notMem, h_dvd, (groups_nul_iff hA (h_plain h_notMem) h_dvd).mp h⟩
  · rintro ⟨h_notMem, h_dvd, h_unseen⟩
    rw [h_self h_notMem]
    exact (groups_nul_iff hA (h_plain h_notMem) h_dvd).mpr h_unseen

/-! ### Texts -/

variable {s : Str}

/-- `doit` looks up no index out of range, and ignores what is not of the alphabet. -/
def Ignores (s : Str) : Prop :=
  ∃ o, doit s = .ok o ∧ doit (s.filter (· ∈ alphabet)) = .ok o

theorem length_alphabet : alphabet.length = 64 := by
  decide +kernel

theorem nul_notMem_alphabet : (0 : UInt8) ∉ alphabet := by
  have h_nodup : (alphabet ++ [0]).Nodup := kAlphabet_nodup
  exact fun h_mem => (List.nodup_append.mp h_nodup).2.2 0 h_mem 0 (List.mem_singleton_self 0) rfl

/-- The value of a character is its place in the alphabet, or that of the NUL behind it. -/
theorem code_eq (c : UInt8) :
    code c = (alphabet.idxOf? c).or (if c = 0 then some 64 else none) := by
  have h_append : kAlphabet.idxOf? c
      = (alphabet.idxOf? c).or (([0].idxOf? c).map (· + alphabet.length)) := by
    rw [kAlphabet, List.idxOf?, List.findIdx?_append]
  rw [code, h_append, length_alphabet, List.idxOf?_singleton]
  by_cases h_nul : c = 0
  · simp [h_nul]
  · have h_ne : ¬ (0 : UInt8) = c := fun h => h_nul h.symm
    simp [h_nul, h_ne]

/-- The values of characters: the characters of the alphabet have theirs, and the NUL has one. -/
theorem code_spec (c : UInt8) :
    (c ∈ alphabet ↔ ∃ t < 64, code c = some t) ∧ (c = 0 ↔ code c = some 64) ∧
      ∀ t, code c = some t → t ≤ 64 := by
  rw [code_eq]
  rcases h_idx : alphabet.idxOf? c with _ | t
  · have h_notMem : c ∉ alphabet := List.idxOf?_eq_none_iff.mp h_idx
    rw [Option.none_or]
    by_cases h_nul : c = 0
    · rw [if_pos h_nul]
      refine ⟨iff_of_false h_notMem ?_, iff_of_true h_nul rfl, fun t ht => ?_⟩
      · rintro ⟨t, h_lt, ht⟩
        exact Nat.ne_of_gt h_lt (Option.some.inj ht)
      · exact Nat.le_of_eq (Option.some.inj ht).symm
    · rw [if_neg h_nul]
      refine ⟨iff_of_false h_notMem ?_, iff_of_false h_nul nofun, nofun⟩
      rintro ⟨t, -, ht⟩
      cases ht
  · have h_mem : c ∈ alphabet := by
      by_contra h_notMem
      rw [List.idxOf?_eq_none_iff.mpr h_notMem] at h_idx
      cases h_idx
    have h_lt : t < 64 := by
      obtain ⟨h_lt, -⟩ := List.idxOf?_eq_some_iff.mp h_idx
      rwa [length_alphabet] at h_lt
    have h_nul : c ≠ 0 := fun h => nul_notMem_alphabet (h ▸ h_mem)
    rw [Option.some_or]
    refine ⟨iff_of_true h_mem ⟨t, h_lt, rfl⟩, iff_of_false h_nul fun h => ?_, fun t' ht => ?_⟩
    · exact Nat.ne_of_lt h_lt (Option.some.inj h)
    · rw [← Option.some.inj ht]
      exact Nat.le_of_lt h_lt

theorem codes_le {t : ℕ} (h : t ∈ codes s) : t ≤ 64 := by
  obtain ⟨c, -, hc⟩ := List.mem_filterMap.mp h
  exact (code_spec c).2.2 t hc

theorem nul_mem_codes : 64 ∈ codes s ↔ 0 ∈ s := by
  constructor
  · intro h
    obtain ⟨c, h_mem, hc⟩ := List.mem_filterMap.mp h
    exact (code_spec c).2.1.mpr hc ▸ h_mem
  · intro h
    exact List.mem_filterMap.mpr ⟨0, h, (code_spec 0).2.1.mp rfl⟩

theorem plain_codes (h : 0 ∉ s) : Plain (codes s) := by
  intro t ht
  have h_le := codes_le ht
  have h_ne : t ≠ 64 := fun h_eq => h (nul_mem_codes.mp (h_eq ▸ ht))
  omega

/-- The values without what is not of the alphabet. -/
theorem codes_filter (s : Str) : codes (s.filter (· ∈ alphabet)) = (codes s).filter (· < 64) := by
  induction s with
  | nil => rfl
  | cons c s ih =>
    have h_spec := code_spec c
    by_cases h_mem : c ∈ alphabet
    · obtain ⟨t, h_lt, ht⟩ := h_spec.1.mp h_mem
      rw [List.filter_cons_of_pos (p := (· ∈ alphabet)) (decide_eq_true h_mem), codes_cons_some ht, codes_cons_some ht, ih,
        List.filter_cons_of_pos (by simpa using h_lt)]
    · rw [List.filter_cons_of_neg (p := (· ∈ alphabet)) (by simpa using h_mem), ih]
      cases h_code : code c with
      | none => rw [codes_cons_none h_code]
      | some t =>
        have h_ge : ¬ t < 64 := fun h_lt => h_mem (h_spec.1.mpr ⟨t, h_lt, h_code⟩)
        rw [codes_cons_some h_code, List.filter_cons_of_neg (by simpa using h_ge)]

theorem codes_nul (u v : Str) : codes (u ++ 0 :: v) = codes u ++ 64 :: codes v := by
  have h_nul : code 0 = some 64 := (code_spec 0).2.1.mp rfl
  rw [codes, List.filterMap_append, List.filterMap_cons_some h_nul]
  rfl

theorem ignores_iff_groups (h : InRange s) :
    Ignores s ↔ groups (codes s) = groups ((codes s).filter (· < 64)) := by
  have h_filter : InRange (s.filter (· ∈ alphabet)) := fun c hc => h c (List.mem_of_mem_filter hc)
  unfold Ignores
  rw [doit_eq h, doit_eq h_filter, codes_filter]
  constructor
  · rintro ⟨o, h_o, h_o'⟩
    exact (Except.ok.inj h_o).trans (Except.ok.inj h_o').symm
  · intro h_eq
    exact ⟨_, rfl, congrArg Except.ok h_eq.symm⟩

/-- **What is ignored.** No character may be negative as a `char`. And there is no NUL, or a single one
such that the characters of the alphabet come to whole rounds, those behind it are all `A`, and before
it they come to whole rounds or the last of them has an odd value. -/
theorem ignores_iff (s : Str) :
    Ignores s ↔ InRange s ∧ (0 ∉ s ∨ ∃ u v, s = u ++ 0 :: v ∧ 0 ∉ u ∧ 0 ∉ v ∧
      4 ∣ (codes u).length + (codes v).length ∧ Unseen (codes u) (codes v)) := by
  by_cases h_range : InRange s
  · rw [ignores_iff_groups h_range, and_iff_right h_range]
    have h_split : ∀ u v, s = u ++ 0 :: v → 0 ∉ u →
        (groups (codes s) = groups ((codes s).filter (· < 64)) ↔
          0 ∉ v ∧ 4 ∣ (codes u).length + (codes v).length ∧ Unseen (codes u) (codes v)) := by
      intro u v h_eq h_u
      rw [h_eq, codes_nul, groups_filter_iff (plain_codes h_u) fun t ht => codes_le ht, nul_mem_codes]
    constructor
    · intro h
      by_cases h_mem : 0 ∈ s
      · obtain ⟨u, v, h_eq, h_u⟩ := List.eq_append_cons_of_mem h_mem
        obtain ⟨h_v, h_dvd, h_unseen⟩ := (h_split u v h_eq h_u).mp h
        exact .inr ⟨u, v, h_eq, h_u, h_v, h_dvd, h_unseen⟩
      · exact .inl h_mem
    · rintro (h_notMem | ⟨u, v, h_eq, h_u, h_v, h_dvd, h_unseen⟩)
      · rw [List.filter_eq_self.mpr fun t ht => decide_eq_true (plain_codes h_notMem t ht)]
      · exact (h_split u v h_eq h_u).mpr ⟨h_v, h_dvd, h_unseen⟩
  · refine iff_of_false ?_ fun h => h_range h.1
    rintro ⟨o, h_ok, -⟩
    exact h_range (doit_isOk_iff.mp ⟨o, h_ok⟩)

/-- A byte from `0x80` on, and a NUL in a quantum. -/
theorem not_ignores_high_nul : ¬ Ignores [0xff] ∧ ¬ Ignores (str "AA\x00AA") := by
  constructor
  · rintro ⟨o, h_ok, -⟩
    have h_error : doit [0xff] = .error .outOfRange := by decide +kernel
    rw [h_error] at h_ok
    cases h_ok
  · rintro ⟨o, h_ok, h_ok'⟩
    have h_nul : doit (str "AA\x00AA") = .ok [0, 16, 0] := by decide +kernel
    have h_without : doit ((str "AA\x00AA").filter (· ∈ alphabet)) = .ok [0, 0, 0] := by
      decide +kernel
    rw [h_nul] at h_ok
    rw [h_without, ← h_ok] at h_ok'
    exact absurd (Except.ok.inj h_ok') (by decide)

end GitlstreeFS.Base64
