import GitlstreeFS.Jjson.Position
import GitlstreeFS.Jjson.Written

/-!
# How far a number is read

`ObtainNumber` takes the longest run of the characters in `valid_number` (`obtainValue_run`). For a number of
RFC 7159 this is the whole of it, unless there is a small `e` in it, which `valid_number` does not have:
there the run ends before the exponent (`readsWhole_iff`).
-/

namespace GitlstreeFS.Jjson.Parser

open Effect Json

variable {ν : Type} {text u s rest data : Str} {valid : List UInt8} {p : State} {b : UInt8}

/-! ### A run of characters -/

/-- What is at the position. -/
theorem peek_apply (text : Str) (p : State) :
    peek text p = (.ok (Jjson.peek (text.drop p.position)), p) := by
  rw [peek, Proc.bind_apply, eof]
  by_cases h : text.length ≤ p.position
  · simp [Proc.next, h, Jjson.peek, List.drop_of_length_le h, Proc.pure_apply]
  · simp [Proc.next, h, Jjson.peek, List.headD_eq_head?_getD]

theorem skip_apply (h : text.drop p.position ≠ []) : skip text p = (.ok true, p.advance) := by
  have h_lt : ¬ text.length ≤ p.position := fun h_le => h (List.drop_of_length_le h_le)
  rw [skip, Proc.bind_apply, eof]
  simp [Proc.next, h_lt]

/-- The iteration for a character that is one of those. -/
theorem consumeBody_mem (h : text.drop p.position = b :: rest) (hb : b ∈ valid) :
    consumeBody text valid data p = (.ok (.goOn (data ++ [b])), p.advance) := by
  have h_peek : peek text p = (.ok b, p) := by
    rw [peek_apply, h]
    rfl
  have h_skip : skip text p = (.ok true, p.advance) := skip_apply (by rw [h]; exact List.cons_ne_nil _ _)
  rw [consumeBody, Proc.bind_apply, h_peek]
  change (if b ∈ valid then _ else _ : Method _) p = _
  rw [if_pos hb, Proc.bind_apply, h_peek]
  change (skip text >>= _) p = _
  rw [Proc.bind_apply, h_skip]
  rfl

/-- The iteration for any other one, and for the end of the text. -/
theorem consumeBody_notMem (h : Jjson.peek (text.drop p.position) ∉ valid) :
    consumeBody text valid data p = (.ok (.leave data), p) := by
  rw [consumeBody, Proc.bind_apply, peek_apply]
  change (if _ ∈ valid then _ else _ : Method _) p = _
  rw [if_neg h]
  rfl

/-- `position_` behind `n` more characters. -/
def State.forward (p : State) (n : ℕ) : State :=
  State.advance^[n] p

theorem State.position_forward (p : State) (n : ℕ) : (p.forward n).position = p.position + n := by
  induction n generalizing p with
  | zero => rfl
  | succ n ih =>
    have h_advance : p.forward (n + 1) = p.advance.forward n := rfl
    rw [h_advance, ih, advance, Nat.add_right_comm]
    rfl

/-- The loop takes all that are there. -/
theorem loop_consumeBody (h_valid : ∀ b ∈ s, b ∈ valid) (h_rest : Jjson.peek rest ∉ valid) {n : ℕ}
    (hn : s.length < n) (h : text.drop p.position = s ++ rest) :
    Proc.loop .endless (consumeBody text valid) n data p = (.ok (data ++ s), p.forward s.length) := by
  induction s generalizing n data p with
  | nil =>
    obtain ⟨n, rfl⟩ := Nat.exists_eq_succ_of_ne_zero (Nat.ne_of_gt hn)
    have h_leave : consumeBody text valid data p = (.ok (.leave data), p) :=
      consumeBody_notMem (by rwa [h])
    rw [Proc.loop, Proc.bind_apply, h_leave, List.append_nil]
    rfl
  | cons b s ih =>
    obtain ⟨n, rfl⟩ := Nat.exists_eq_succ_of_ne_zero (Nat.ne_zero_of_lt hn)
    obtain ⟨h_b, h_s⟩ := List.forall_mem_cons.mp h_valid
    have h_behind : text.drop p.advance.position = s ++ rest := by
      have h_tail := congrArg List.tail h
      rwa [List.tail_drop] at h_tail
    rw [Proc.loop, Proc.bind_apply, consumeBody_mem h h_b]
    change Proc.loop .endless (consumeBody text valid) n (data ++ [b]) p.advance = _
    rw [ih h_s (Nat.lt_of_succ_lt_succ hn) h_behind, List.append_assoc]
    rfl

/-- **The longest run** of characters of numbers is read, where one that can begin a number is the first. -/
theorem obtainValue_run (strtof : Str → ν) (h_start : Jjson.peek s ∈ str "-0123456789+")
    (h_valid : ∀ b ∈ s, b ∈ validNumber) (h_rest : Jjson.peek rest ∉ validNumber)
    (hp : p.position = u.length) (k : ℕ) :
    obtainValue (u ++ (s ++ rest)) strtof (k + 1) p
      = (.ok (some (.number (strtof s))), p.forward s.length) := by
  have h_at : (u ++ (s ++ rest)).drop p.position = s ++ rest := by rw [hp, List.drop_left]
  have h_peek : Jjson.peek (s ++ rest) = Jjson.peek s :=
    peek_append (fun h_zero => by rw [h_zero] at h_start; exact absurd h_start (by decide)) rest
  have h_bound : s.length < bound (u ++ (s ++ rest)) := by
    rw [bound, List.length_append, List.length_append]
    omega
  have h_consume : consume (u ++ (s ++ rest)) validNumber p = (.ok s, p.forward s.length) :=
    loop_consumeBody h_valid h_rest h_bound h_at
  -- none of the characters that other values begin with
  have h_not : ∀ b ∈ str "-0123456789+", b ≠ 0x66 ∧ b ≠ 0x6e ∧ b ≠ 0x74 := by decide +kernel
  obtain ⟨h₁, h₂, h₃⟩ := h_not _ h_start
  rw [obtainValue, Proc.bind_apply, peek_apply, h_at, h_peek]
  change (if _ then _ else _ : Method _) p = _
  rw [if_neg h₁, if_neg h₂, if_neg h₃, if_pos h_start, obtainNumber, Proc.bind_apply, h_consume]
  rfl

/-! ### Numbers -/

/-- What a number consists of: the characters of `valid_number`, and a small `e`. -/
theorem isNumberLexeme_valid {lexeme : Str} (h : IsNumberLexeme lexeme) :
    Jjson.peek lexeme ∈ str "-0123456789+" ∧ ∀ b ∈ lexeme, b ≠ 0x65 → b ∈ validNumber := by
  obtain ⟨minus, int, frac, exp, h_minus, h_int, h_frac, h_exp, rfl⟩ := h
  obtain ⟨h_ne, h_digits⟩ := h_int.isDigits
  constructor
  · obtain rfl | rfl := h_minus
    · obtain ⟨b, int, rfl⟩ := List.exists_cons_of_ne_nil h_ne
      exact (digit_valid (h_digits b List.mem_cons_self)).1
    · exact (by decide : 0x2d ∈ str "-0123456789+")
  · intro b hb h_e
    rw [List.mem_append, List.mem_append, List.mem_append] at hb
    obtain hb | hb | hb | hb := hb
    · -- the minus
      obtain rfl | rfl := h_minus
      · cases hb
      · rw [List.mem_singleton.mp hb]
        decide
    · exact (digit_valid (h_digits b hb)).2
    · -- the fraction
      obtain rfl | ⟨d, h_d, rfl⟩ := h_frac
      · cases hb
      · obtain rfl | hb := List.mem_cons.mp hb
        · decide
        · exact (digit_valid (h_d.2 b hb)).2
    · -- the exponent
      obtain rfl | ⟨e, plusMinus, d, h_mark, h_sign, h_d, rfl⟩ := h_exp
      · cases hb
      · obtain rfl | hb := List.mem_cons.mp hb
        · obtain rfl := h_mark.resolve_left h_e
          decide
        obtain hb | hb := List.mem_append.mp hb
        · obtain rfl | rfl | rfl := h_sign
          · cases hb
          · rw [List.mem_singleton.mp hb]
            decide
          · rw [List.mem_singleton.mp hb]
            decide
        · exact (digit_valid (h_d.2 b hb)).2

/-- What stands behind a value does not belong to a number. -/
theorem peek_notMem_of_delimits (h : Delimits rest) : Jjson.peek rest ∉ validNumber := by
  cases rest with
  | nil => exact (by decide : (0 : UInt8) ∉ validNumber)
  | cons b rest =>
    have h_not : ∀ c ∈ validWhitespace ++ [0x2c, 0x5d, 0x7d], c ∉ validNumber := by decide +kernel
    refine h_not b (List.mem_append.mpr ?_)
    exact (h b rfl).imp mem_validWhitespace.mpr (by simp)

/-- From the beginning of the lexeme on, `ObtainValue` returns what `strtof` makes of all of it, and
`position_` is behind it then. -/
def ReadsWhole (strtof : Str → ν) (u lexeme rest : Str) (k : ℕ) (p : State) : Prop :=
  (obtainValue (u ++ (lexeme ++ rest)) strtof k p).1 = .ok (some (.number (strtof lexeme)))
    ∧ (obtainValue (u ++ (lexeme ++ rest)) strtof k p).2.position = u.length + lexeme.length

/-- **A number is read as a whole** just if there is no small `e` in it. -/
theorem readsWhole_iff (strtof : Str → ν) (u lexeme rest : Str) (h : IsNumberLexeme lexeme)
    (h_rest : Delimits rest) (k : ℕ) (p : State) (hp : p.position = u.length) :
    ReadsWhole strtof u lexeme rest (k + 1) p ↔ 0x65 ∉ lexeme := by
  obtain ⟨h_start, h_valid⟩ := isNumberLexeme_valid h
  by_cases h_mem : 0x65 ∈ lexeme
  · -- the run ends at the first one
    refine iff_of_false ?_ (not_not.mpr h_mem)
    rintro ⟨-, h_position⟩
    obtain ⟨a, t, rfl, ha⟩ := List.eq_append_cons_of_mem h_mem
    have h_start_a : Jjson.peek a ∈ str "-0123456789+" := by
      cases a with
      | nil => exact absurd h_start (by decide : (0x65 : UInt8) ∉ str "-0123456789+")
      | cons b a => exact h_start
    have h_valid_a : ∀ b ∈ a, b ∈ validNumber := fun b hb =>
      h_valid b (List.mem_append_left _ hb) fun h_e => ha (h_e ▸ hb)
    have h_text : (a ++ 0x65 :: t) ++ rest = a ++ (0x65 :: (t ++ rest)) := by simp
    have h_e : Jjson.peek (0x65 :: (t ++ rest)) ∉ validNumber := (by decide : (0x65 : UInt8) ∉ validNumber)
    rw [h_text, obtainValue_run strtof h_start_a h_valid_a h_e hp, State.position_forward, hp,
      List.length_append, List.length_cons] at h_position
    omega
  · have h_run := obtainValue_run strtof h_start
      (fun b hb => h_valid b hb fun h_e => h_mem (h_e ▸ hb)) (peek_notMem_of_delimits h_rest) hp k
    refine iff_of_true ?_ h_mem
    rw [ReadsWhole, h_run, State.position_forward, hp]
    exact ⟨rfl, rfl⟩

/-- `-1.5E+2`, behind a bracket and before a comma. -/
theorem readsWhole_sample : ReadsWhole (fun s => s) (str "[") (str "-1.5E+2") (str ",") 1 ⟨1, []⟩ := by
  have h_lexeme : IsNumberLexeme (str "-1.5E+2") :=
    ⟨str "-", str "1", str ".5", str "E+2", .inr (by decide), .inr (by decide +kernel),
      .inr ⟨str "5", by decide +kernel, by decide⟩,
      .inr ⟨0x45, str "+", str "2", .inr rfl, .inr (.inl (by decide)), by decide +kernel, by decide⟩,
      by decide⟩
  have h_rest : Delimits (str ",") := by
    rintro b ⟨⟩
    exact .inr (.inl rfl)
  exact (readsWhole_iff (fun s => s) (str "[") (str "-1.5E+2") (str ",") h_lexeme h_rest 0 ⟨1, []⟩ rfl).mpr
    (by decide)

/-- Of `1e5` only the `1` is read. -/
theorem not_readsWhole_exponent :
    IsNumberLexeme (str "1e5") ∧ Delimits []
      ∧ obtainValue (str "1e5") (fun s => s) 1 .initial = (.ok (some (.number (str "1"))), ⟨1, [0]⟩)
      ∧ ¬ ReadsWhole (fun s => s) [] (str "1e5") [] 1 .initial := by
  have h_lexeme : IsNumberLexeme (str "1e5") :=
    ⟨[], str "1", [], str "e5", .inl rfl, .inr (by decide +kernel), .inl rfl,
      .inr ⟨0x65, [], str "5", .inl rfl, .inl rfl, by decide +kernel, by decide⟩, by decide⟩
  have h_run : obtainValue (str "1e5") (fun s => s) 1 .initial
      = (.ok (some (.number (str "1"))), ⟨1, [0]⟩) :=
    obtainValue_run (u := []) (s := str "1") (p := .initial) (fun s => s) (by decide) (by decide +kernel)
      (by decide : Jjson.peek (str "e5") ∉ validNumber) rfl 0
  refine ⟨h_lexeme, nofun, h_run, fun h => ?_⟩
  have h_position : (obtainValue (str "1e5") (fun s => s) 1 .initial).2.position = 3 := h.2
  rw [h_run] at h_position
  exact absurd h_position (by decide)

end GitlstreeFS.Jjson.Parser
