import GitlstreeFS.Text

/-!
# `base64decode.cc`

`Base64Decoder` fills a table with the values of the alphabet, and `doit` goes through the text in
rounds: a round collects up to four values (`quantum`), skipping the characters that have none
(`sextet`), and puts out one byte less than it has found values.

* What is left of `b64` from `position` on stands for the two.
* The table is filled up to `sizeof(kAlphabet)`, which counts the NUL behind the last character.
* A `char` is signed, and a negative index is out of the range of the table, which is undefined.

`doit_eq` says what the rounds come to: the values of the text four at a time, whatever stands between
them.
-/

namespace GitlstreeFS.Base64

/-! ### The table -/

/-- `A-Z a-z 0-9 + /` -/
def alphabet : Str :=
  str "ABCDEFGHIJKLMNOPQRSTUVWXYZabcdefghijklmnopqrstuvwxyz0123456789+/"

/-- `kAlphabet`, a string literal with the NUL that ends it. -/
def kAlphabet : Str :=
  alphabet ++ [0]

/-- `kEmptyChar`. -/
def kEmptyChar : ℤ := -1

/-- `lookup_`, as `Base64Decoder::Base64Decoder` fills it. -/
def lookup : List ℤ :=
  kAlphabet.zipIdx.foldl (fun table entry => table.set entry.1.toNat entry.2)
    (List.replicate 256 kEmptyChar)

inductive Fault where
  /-- The index is not one of the table. -/
  | outOfRange
  deriving DecidableEq, Repr

/-- The `size_t` that a `char` is converted to. -/
def index (c : UInt8) : ℕ :=
  (c.toInt8.toInt % 18446744073709551616).toNat

/-- `lookup_[c]`. -/
def lookupAt (c : UInt8) : Except Fault ℤ :=
  match lookup[index c]? with
  | some t => .ok t
  | none => .error .outOfRange

/-! ### `doit` -/

/-- The `do` loop: the next value, or `kEmptyChar` if the text ends before. -/
def sextet : Str → Except Fault (ℤ × Str)
  | [] => .ok (kEmptyChar, [])
  | c :: s => do
    let t ← lookupAt c
    if t = kEmptyChar ∧ s ≠ [] then sextet s else return (t, s)

/-- The loop over `j`, which has `n` iterations left: `j` and `result` behind it, and what is left. -/
def quantum : ℕ → ℕ → ℕ → Str → Except Fault (ℕ × ℕ × Str)
  | 0, j, result, s => .ok (j, result, s)
  | n + 1, j, result, s =>
    if s = [] then .ok (j, result, s)
    else do
      let (t, s) ← sextet s
      if t ≠ kEmptyChar then quantum n (j + 1) (result ||| t.toNat <<< ((3 - j) * 6)) s
      else return (j, result, s)

/-- The loop over `k`. -/
def output (j result : ℕ) : Str :=
  (List.range (j - 1)).map fun k => UInt8.ofNat ((result >>> ((2 - k) * 8)) &&& 255)

/-- The rounds, of which there are at most as many as characters. -/
def rounds : ℕ → Str → Except Fault Str
  | 0, _ => .ok []
  | n + 1, s =>
    if s = [] then .ok []
    else do
      let (j, result, s) ← quantum 4 0 0 s
      return output j result ++ (← rounds n s)

/-- `Base64Decoder::doit`. -/
def doit (b64 : Str) : Except Fault Str :=
  rounds b64.length b64

/-- `base64decode`. -/
def base64decode (b64 : Str) : Except Fault Str :=
  doit b64

/-! ### Values -/

/-- The value of a character, if it has one. -/
def code (c : UInt8) : Option ℕ :=
  kAlphabet.idxOf? c

/-- The values in a text. -/
def codes (s : Str) : List ℕ :=
  s.filterMap code

/-- The characters that are no index of the table: as `char`s they are negative. -/
def IsHigh (c : UInt8) : Prop :=
  0x80 ≤ c

instance (c : UInt8) : Decidable (IsHigh c) :=
  inferInstanceAs (Decidable (_ ≤ _))

/-- The alphabet and the NUL by their numbers. -/
theorem kAlphabet_toNat : kAlphabet.map UInt8.toNat
    = List.range' 65 26 ++ List.range' 97 26 ++ List.range' 48 10 ++ [43, 47, 0] := by
  decide +kernel

theorem kAlphabet_nodup : kAlphabet.Nodup := by
  have h_toNat : (kAlphabet.map UInt8.toNat).Nodup := by
    rw [kAlphabet_toNat]
    decide +kernel
  exact List.Pairwise.of_map UInt8.toNat (fun a b h_ne h_eq => h_ne (congrArg _ h_eq)) h_toNat

/-- A table in which the characters of `l` are entered with their places, from `k` on. -/
theorem fill_getElem? (l : Str) (h_nodup : l.Nodup) (k : ℕ) (table : List ℤ)
    (h_length : table.length = 256) (c : UInt8) :
    ((l.zipIdx k).foldl (fun table entry => table.set entry.1.toNat entry.2) table)[c.toNat]?
      = (l.idxOf? c).elim table[c.toNat]? fun t => some ((t : ℤ) + k) := by
  induction l generalizing k table with
  | nil => rfl
  | cons a l ih =>
    have h_set : (table.set a.toNat k).length = 256 := by rw [List.length_set, h_length]
    have h_cons := List.nodup_cons.mp h_nodup
    rw [List.zipIdx_cons, List.foldl_cons, ih h_cons.2 (k + 1) _ h_set, List.idxOf?_cons]
    by_cases h_eq : a = c
    · -- the entry is made here, and no later character overwrites it
      subst h_eq
      have h_lt : a.toNat < table.length := by
        rw [h_length]
        exact a.toNat_lt
      have h_none : l.idxOf? a = none := List.idxOf?_eq_none_iff.mpr h_cons.1
      rw [h_none, if_pos (beq_self_eq_true a), Option.elim_none, Option.elim_some,
        List.getElem?_set_self h_lt]
      simp
    · have h_ne : a.toNat ≠ c.toNat := fun h => h_eq (UInt8.toNat_inj.mp h)
      rw [if_neg (by simpa using h_eq), List.getElem?_set_ne h_ne]
      cases l.idxOf? c with
      | none => rfl
      | some t =>
        have h_place : (t : ℤ) + (k + 1 : ℕ) = (t + 1 : ℕ) + k := by omega
        exact congrArg some h_place

/-- What the table holds for a character. -/
theorem lookup_getElem? (c : UInt8) :
    lookup[c.toNat]? = some ((code c).elim kEmptyChar fun t => t) := by
  have h_empty : (List.replicate 256 kEmptyChar)[c.toNat]? = some kEmptyChar := by
    rw [List.getElem?_replicate, if_pos c.toNat_lt]
  unfold lookup
  rw [fill_getElem? kAlphabet kAlphabet_nodup 0 _ List.length_replicate c, h_empty]
  unfold code
  cases kAlphabet.idxOf? c with
  | none => rfl
  | some t => simp

/-- A `char` is an index of the table if it is not negative, and far behind its end otherwise. -/
theorem index_spec (c : UInt8) : (¬ IsHigh c → index c = c.toNat) ∧ (IsHigh c → 256 ≤ index c) := by
  have h_all : ∀ n : Fin 256, (¬ IsHigh (UInt8.ofNat n) → index (UInt8.ofNat n) = n) ∧
      (IsHigh (UInt8.ofNat n) → 256 ≤ index (UInt8.ofNat n)) := by
    decide +kernel
  have h_c := h_all ⟨c.toNat, c.toNat_lt⟩
  rwa [UInt8.ofNat_toNat] at h_c

theorem lookupAt_of_not_isHigh {c : UInt8} (h : ¬ IsHigh c) :
    lookupAt c = .ok ((code c).elim kEmptyChar fun t => t) := by
  have h_entry : lookup[index c]? = some ((code c).elim kEmptyChar fun t => t) := by
    rw [(index_spec c).1 h]
    exact lookup_getElem? c
  unfold lookupAt
  simp only [h_entry]

theorem lookupAt_of_isHigh {c : UInt8} (h : IsHigh c) : lookupAt c = .error .outOfRange := by
  have h_length : lookup.length = 256 := by decide +kernel
  have h_none : lookup[index c]? = none :=
    List.getElem?_eq_none (by rw [h_length]; exact (index_spec c).2 h)
  unfold lookupAt
  simp only [h_none]

variable {s : Str}

/-- No character is out of the range of the table. -/
def InRange (s : Str) : Prop :=
  ∀ c ∈ s, ¬ IsHigh c

theorem codes_cons_none {c : UInt8} (h : code c = none) (s : Str) : codes (c :: s) = codes s :=
  List.filterMap_cons_none h

theorem codes_cons_some {c : UInt8} {t : ℕ} (h : code c = some t) (s : Str) :
    codes (c :: s) = t :: codes s :=
  List.filterMap_cons_some h

theorem sextet_of_code {c : UInt8} {t : ℕ} (hc : ¬ IsHigh c) (h : code c = some t) (s : Str) :
    sextet (c :: s) = .ok ((t : ℤ), s) := by
  have h_ne : ¬ ((t : ℤ) = kEmptyChar ∧ s ≠ []) := by
    unfold kEmptyChar
    omega
  rw [sextet, lookupAt_of_not_isHigh hc, h]
  change (if (t : ℤ) = kEmptyChar ∧ s ≠ [] then sextet s else Except.ok ((t : ℤ), s)) = _
  rw [if_neg h_ne]

theorem sextet_of_none {c : UInt8} (hc : ¬ IsHigh c) (h : code c = none) (s : Str) :
    sextet (c :: s) = sextet s := by
  rw [sextet, lookupAt_of_not_isHigh hc, h]
  change (if kEmptyChar = kEmptyChar ∧ s ≠ [] then sextet s else _) = _
  by_cases h_nil : s = []
  · rw [if_neg (by simp [h_nil]), h_nil]
    rfl
  · rw [if_pos ⟨rfl, h_nil⟩]

/-- The next value of a text that has one. -/
theorem sextet_cons {t : ℕ} {ts : List ℕ} (h : InRange s) (h_codes : codes s = t :: ts) :
    ∃ r, sextet s = .ok ((t : ℤ), r) ∧ codes r = ts ∧ InRange r ∧ r.length < s.length := by
  induction s with
  | nil => cases h_codes
  | cons c s ih =>
    have hc := h c List.mem_cons_self
    have hs : InRange s := fun b hb => h b (List.mem_cons_of_mem _ hb)
    cases h_code : code c with
    | none =>
      rw [codes_cons_none h_code] at h_codes
      obtain ⟨r, h_eq, h_r, h_range, h_lt⟩ := ih hs h_codes
      rw [sextet_of_none hc h_code]
      exact ⟨r, h_eq, h_r, h_range, Nat.lt_succ_of_lt h_lt⟩
    | some t' =>
      rw [codes_cons_some h_code] at h_codes
      obtain ⟨rfl, rfl⟩ := List.cons.inj h_codes
      exact ⟨s, sextet_of_code hc h_code s, rfl, hs, Nat.lt_succ_self _⟩

/-- A text without values is skipped to its end. -/
theorem sextet_nil (h : InRange s) (h_codes : codes s = []) : sextet s = .ok (kEmptyChar, []) := by
  induction s with
  | nil => rfl
  | cons c s ih =>
    cases h_code : code c with
    | none =>
      rw [codes_cons_none h_code] at h_codes
      rw [sextet_of_none (h c List.mem_cons_self) h_code]
      exact ih (fun b hb => h b (List.mem_cons_of_mem _ hb)) h_codes
    | some t =>
      rw [codes_cons_some h_code] at h_codes
      cases h_codes

/-! ### Rounds -/

/-- `result`, when values are put into it from the `j`-th place on. -/
def gather (j result : ℕ) : List ℕ → ℕ
  | [] => result
  | t :: ts => gather (j + 1) (result ||| t <<< ((3 - j) * 6)) ts

/-- What the values come to, four at a time. -/
def groups : List ℕ → Str
  | a :: b :: c :: d :: ts => output 4 (gather 0 0 [a, b, c, d]) ++ groups ts
  | ts => output ts.length (gather 0 0 ts)

theorem groups_four (a b c d : ℕ) (ts : List ℕ) :
    groups (a :: b :: c :: d :: ts) = output 4 (gather 0 0 [a, b, c, d]) ++ groups ts := by
  rw [groups]

@[simp] theorem groups_nil : groups [] = [] := rfl

/-- One round of `groups`. -/
theorem groups_eq (ts : List ℕ) :
    groups ts = output (min 4 ts.length) (gather 0 0 (ts.take 4)) ++ groups (ts.drop 4) := by
  match ts with
  | [] => rfl
  | [a] => exact (List.append_nil _).symm
  | [a, b] => exact (List.append_nil _).symm
  | [a, b, c] => exact (List.append_nil _).symm
  | a :: b :: c :: d :: ts =>
    have h_min : min 4 (a :: b :: c :: d :: ts).length = 4 := by
      simp
    rw [groups_four, h_min]
    rfl

/-- An iteration of the loop over `j`. -/
theorem quantum_succ (n j result : ℕ) {t : ℤ} {r : Str} (h_nil : s ≠ []) (h : sextet s = .ok (t, r)) :
    quantum (n + 1) j result s
      = if t ≠ kEmptyChar then quantum n (j + 1) (result ||| t.toNat <<< ((3 - j) * 6)) r
        else .ok (j, result, r) := by
  rw [quantum, if_neg h_nil, h]
  rfl

/-- A round takes up to `n` values. -/
theorem quantum_eq (n j result : ℕ) (h : InRange s) :
    ∃ r, quantum n j result s
        = .ok (j + min n (codes s).length, gather j result ((codes s).take n), r) ∧
      codes r = (codes s).drop n ∧ InRange r ∧ r.length ≤ s.length ∧
      (n ≠ 0 → s ≠ [] → r.length < s.length) := by
  induction n generalizing j result s with
  | zero => exact ⟨s, by simp [quantum, gather], rfl, h, Nat.le_refl _, fun h_zero => absurd rfl h_zero⟩
  | succ n ih =>
    by_cases h_nil : s = []
    · subst h_nil
      exact ⟨[], rfl, rfl, h, Nat.le_refl _, fun _ h_nil => absurd rfl h_nil⟩
    · have h_pos := List.length_pos_iff.mpr h_nil
      cases h_codes : codes s with
      | nil =>
        rw [quantum_succ n j result h_nil (sextet_nil h h_codes), if_neg (not_not.mpr rfl)]
        exact ⟨[], rfl, rfl, fun _ h_mem => absurd h_mem List.not_mem_nil, Nat.zero_le _,
          fun _ _ => h_pos⟩
      | cons t ts =>
        obtain ⟨r, h_sextet, h_r, h_range, h_lt⟩ := sextet_cons h h_codes
        obtain ⟨r', h_eq, h_r', h_range', h_le, -⟩ :=
          ih (j + 1) (result ||| t <<< ((3 - j) * 6)) h_range
        have h_ne : (t : ℤ) ≠ kEmptyChar := by
          unfold kEmptyChar
          omega
        refine ⟨r', ?_, ?_, h_range', by omega, fun _ _ => by omega⟩
        · rw [quantum_succ n j result h_nil h_sextet, if_pos h_ne, Int.toNat_natCast, h_eq, h_r, List.take_succ_cons, gather,
            List.length_cons, Nat.succ_min_succ]
          congr 2
          omega
        · rw [h_r', h_r, List.drop_succ_cons]

theorem rounds_eq (n : ℕ) (h : InRange s) (hn : s.length ≤ n) : rounds n s = .ok (groups (codes s)) := by
  induction n generalizing s with
  | zero =>
    obtain rfl := List.length_eq_zero_iff.mp (Nat.le_zero.mp hn)
    rfl
  | succ n ih =>
    rw [rounds]
    by_cases h_nil : s = []
    · rw [if_pos h_nil, h_nil]
      rfl
    · obtain ⟨r, h_quantum, h_r, h_range, -, h_lt⟩ := quantum_eq 4 0 0 h
      have h_lt := h_lt (by decide) h_nil
      rw [if_neg h_nil, h_quantum, Nat.zero_add]
      change ((rounds n r) >>= fun o => .ok (output _ _ ++ o)) = _
      rw [ih h_range (by omega), h_r, groups_eq (codes s)]
      rfl

/-- **What `doit` decodes.** -/
theorem doit_eq (h : InRange s) : doit s = .ok (groups (codes s)) :=
  rounds_eq s.length h (Nat.le_refl _)

/-! ### Characters out of range -/

theorem sextet_of_isHigh {c : UInt8} (h : IsHigh c) (s : Str) :
    sextet (c :: s) = .error .outOfRange := by
  rw [sextet, lookupAt_of_isHigh h]
  rfl

/-- The values before a character that is out of range do not keep it from being looked up. -/
theorem sextet_high (h : ∃ c ∈ s, IsHigh c) :
    sextet s = .error .outOfRange ∨
      ∃ t r, sextet s = .ok (t, r) ∧ t ≠ kEmptyChar ∧ (∃ c ∈ r, IsHigh c) ∧ r.length < s.length := by
  induction s with
  | nil =>
    obtain ⟨c, h_mem, -⟩ := h
    exact absurd h_mem List.not_mem_nil
  | cons c s ih =>
    by_cases hc : IsHigh c
    · exact .inl (sextet_of_isHigh hc s)
    · have h_rest : ∃ c ∈ s, IsHigh c := by
        obtain ⟨b, h_mem, hb⟩ := h
        obtain rfl | h_mem := List.mem_cons.mp h_mem
        · exact absurd hb hc
        · exact ⟨b, h_mem, hb⟩
      cases h_code : code c with
      | none =>
        rw [sextet_of_none hc h_code]
        obtain h_error | ⟨t, r, h_eq, h_t, h_r, h_lt⟩ := ih h_rest
        · exact .inl h_error
        · exact .inr ⟨t, r, h_eq, h_t, h_r, Nat.lt_succ_of_lt h_lt⟩
      | some t =>
        refine .inr ⟨t, s, sextet_of_code hc h_code s, ?_, h_rest, Nat.lt_succ_self _⟩
        unfold kEmptyChar
        omega

theorem quantum_high (n j result : ℕ) (h : ∃ c ∈ s, IsHigh c) :
    quantum n j result s = .error .outOfRange ∨
      ∃ j' result' r, quantum n j result s = .ok (j', result', r) ∧ (∃ c ∈ r, IsHigh c) ∧
        r.length ≤ s.length ∧ (n ≠ 0 → r.length < s.length) := by
  induction n generalizing j result s with
  | zero => exact .inr ⟨j, result, s, rfl, h, Nat.le_refl _, fun h_zero => absurd rfl h_zero⟩
  | succ n ih =>
    have h_nil : s ≠ [] := by
      rintro rfl
      obtain ⟨c, h_mem, -⟩ := h
      exact absurd h_mem List.not_mem_nil
    obtain h_error | ⟨t, r, h_eq, h_t, h_r, h_lt⟩ := sextet_high h
    · rw [quantum, if_neg h_nil, h_error]
      exact .inl rfl
    · rw [quantum_succ n j result h_nil h_eq, if_pos h_t]
      obtain h_error | ⟨j', result', r', h_eq', h_r', h_le, -⟩ :=
        ih (j + 1) (result ||| t.toNat <<< ((3 - j) * 6)) h_r
      · exact .inl h_error
      · exact .inr ⟨j', result', r', h_eq', h_r', by omega, fun _ => by omega⟩

/-- Every character is looked up. -/
theorem rounds_high (n : ℕ) (h : ∃ c ∈ s, IsHigh c) (hn : s.length ≤ n) :
    rounds n s = .error .outOfRange := by
  induction n generalizing s with
  | zero =>
    obtain rfl := List.length_eq_zero_iff.mp (Nat.le_zero.mp hn)
    obtain ⟨c, h_mem, -⟩ := h
    exact absurd h_mem List.not_mem_nil
  | succ n ih =>
    have h_nil : s ≠ [] := by
      rintro rfl
      obtain ⟨c, h_mem, -⟩ := h
      exact absurd h_mem List.not_mem_nil
    rw [rounds, if_neg h_nil]
    obtain h_error | ⟨j, result, r, h_eq, h_r, -, h_lt⟩ := quantum_high 4 0 0 h
    · rw [h_error]
      rfl
    · have h_lt := h_lt (by decide)
      rw [h_eq]
      change ((rounds n r) >>= fun o => .ok (output _ _ ++ o)) = _
      rw [ih h_r (by omega)]
      rfl

/-- **What `doit` is defined on.** -/
theorem doit_isOk_iff : (∃ o, doit s = .ok o) ↔ InRange s := by
  constructor
  · rintro ⟨o, h_ok⟩ c h_mem hc
    rw [doit, rounds_high s.length ⟨c, h_mem, hc⟩ (Nat.le_refl _)] at h_ok
    cases h_ok
  · intro h
    exact ⟨_, doit_eq h⟩

end GitlstreeFS.Base64
