import GitlstreeFS.Jjson.Position

/-!
# The position in a run of the parser

From any position within the text every method moves `position_` forward or not at all, never out of
the text, and does not come to an end that `Halt` has for that: `obtainValue_does`. What carries it are
the bodies of the loops, each of which moves on if its loop goes on, and that a nested value begins
behind a bracket, so that neither the loops nor the nesting go on for longer than the text is.

`parse_in_bounds` puts it together for a whole run.
-/

namespace GitlstreeFS.Jjson.Parser

open Effect

variable {ν : Type} {α : Type}

/-! ### Positions within the text -/

/-- The position is within the text, and has never decreased. -/
def State.Within (text : Str) (p : State) : Prop :=
  p.position ≤ text.length ∧ p.trail.Pairwise (· ≥ ·)

/-- `p'` comes after `p`. -/
def State.Before (p p' : State) : Prop :=
  p.trail <:+ p'.trail

theorem State.Before.refl (p : State) : p.Before p :=
  List.suffix_refl _

theorem State.Before.trans (p p' p'' : State) (h : p.Before p') (h' : p'.Before p'') :
    p.Before p'' :=
  List.IsSuffix.trans h h'

variable {text : Str} {p p' : State}

theorem State.Within.le_of_mem (h : p.Within text) {q : ℕ} (hq : q ∈ p.trail) : q ≤ p.position := by
  obtain rfl | hq := List.mem_cons.mp hq
  · exact Nat.le_refl _
  · exact List.rel_of_pairwise_cons h.2 hq

/-- What comes after is not further back. -/
theorem State.Before.le (h : p.Before p') (h_within : p'.Within text) : p.position ≤ p'.position :=
  h_within.le_of_mem (h.subset List.mem_cons_self)

theorem State.initial_within (text : Str) : State.initial.Within text :=
  ⟨Nat.zero_le _, List.pairwise_singleton _ _⟩

theorem State.advance_within (h : p.Within text) (h_lt : p.position < text.length) :
    p.advance.Within text := by
  refine ⟨h_lt, List.pairwise_cons.mpr ⟨fun q hq => ?_, h.2⟩⟩
  have h_le := h.le_of_mem hq
  exact Nat.le_succ_of_le h_le

theorem State.before_advance (p : State) : p.Before p.advance :=
  List.suffix_cons _ _

/-- From `p` on, `m` stays within the text and goes forward, ends with none but the faults `E`, and
otherwise yields what `Q` asks for. -/
def Does (text : Str) (E : Halt → Prop) (m : Method α) (p : State) (Q : α → State → Prop) : Prop :=
  Runs (State.Within text) State.Before E m p Q

variable {β : Type} {E : Halt → Prop} {m : Method α} {Q : α → State → Prop}

theorem Does.pure {a : α} (h_within : p.Within text) (h : Q a p) : Does text E (pure a) p Q :=
  Runs.pure State.Before.refl h_within h

theorem Does.throw {e : Halt} (h_within : p.Within text) (h : E e) :
    Does text E (Proc.throw e) p Q :=
  Runs.throw State.Before.refl h_within h

theorem Does.bind {f : α → Method β} {Q' : β → State → Prop} (h : Does text E m p Q)
    (h_next : ∀ a p', p'.Within text → p.Before p' → Q a p' → Does text E (f a) p' Q') :
    Does text E (m >>= f) p Q' :=
  Runs.bind State.Before.trans h h_next

theorem Does.ite {c : Prop} [Decidable c] {m' : Method α} (h : c → Does text E m p Q)
    (h' : ¬ c → Does text E m' p Q) : Does text E (if c then m else m') p Q :=
  Runs.ite h h'

theorem Does.mono {Q' : α → State → Prop} (h : Does text E m p Q)
    (h_post : ∀ a p', p'.Within text → p.Before p' → Q a p' → Q' a p') : Does text E m p Q' :=
  (Runs.with h).mono fun a p' ⟨h_within, h_before, h_q⟩ => h_post a p' h_within h_before h_q

/-- The first piece leaves the state as it is. -/
theorem Does.bind_same {f : α → Method β} {P : α → Prop} {Q' : β → State → Prop}
    (h : Does text E m p fun a p' => p' = p ∧ P a) (h_next : ∀ a, P a → Does text E (f a) p Q') :
    Does text E (m >>= f) p Q' := by
  refine h.bind fun a p' _ _ h_a => ?_
  obtain ⟨rfl, h_a⟩ := h_a
  exact h_next a h_a

/-- A piece that begins further on ends further on. -/
theorem Does.ahead {n : ℕ} (h : Does text E m p Q) (h_lt : n < p.position) :
    Does text E m p fun a p' => n < p'.position ∧ Q a p' :=
  h.mono fun _ _ h_within h_before h_q => ⟨Nat.lt_of_lt_of_le h_lt (h_before.le h_within), h_q⟩

/-! ### Characters -/

theorem eof_does (h : p.Within text) :
    Does text E (eof text) p fun b p' => p' = p ∧ (b = true ↔ text.length ≤ p.position) where
  inv := h
  rel := State.Before.refl p
  fault _ h_eq := by cases h_eq
  post b h_eq := by
    obtain rfl := Except.ok.inj h_eq
    exact ⟨rfl, decide_eq_true_iff⟩

theorem reportError_does (h : p.Within text) :
    Does text E (reportError text) p fun _ p' => p' = p ∧ True where
  inv := h
  rel := State.Before.refl p
  fault e h_eq := by
    -- the position is within the text
    rw [reportError, if_neg (Nat.not_lt.mpr h.1)] at h_eq
    cases h_eq
  post _ _ := ⟨rfl, trivial⟩

/-- A character that is not zero is one of the text. -/
theorem peek_does (h : p.Within text) :
    Does text E (peek text) p fun c p' =>
      p' = p ∧ (peek text p).1 = .ok c ∧ (c ≠ 0 → p.position < text.length) := by
  have h_peek : Does text E (peek text) p fun c p' => p' = p ∧ (c ≠ 0 → p.position < text.length) := by
    refine (eof_does h).bind_same fun b hb => .ite (fun h_eof => ?_) fun h_eof => ?_
    · exact .pure h ⟨rfl, fun h_zero => absurd rfl h_zero⟩
    · have h_lt : p.position < text.length := Nat.not_le.mp (hb.not.mp h_eof)
      exact ⟨h, .refl p, fun _ h_eq => (by cases h_eq), fun _ _ => ⟨rfl, fun _ => h_lt⟩⟩
  refine ⟨h_peek.inv, h_peek.rel, h_peek.fault, fun c h_eq => ?_⟩
  obtain ⟨h_same, h_c⟩ := h_peek.post c h_eq
  exact ⟨h_same, h_eq, h_c⟩

/-- The position moves on, unless it is the end. -/
theorem advance_does (f : State → α) (h : p.Within text) (h_lt : p.position < text.length) :
    Does text E (fun p => (.ok (f p), p.advance)) p fun _ p' => p.position < p'.position :=
  ⟨State.advance_within h h_lt, State.before_advance p, fun _ h_eq => (by cases h_eq),
    fun _ _ => Nat.lt_succ_self _⟩

theorem skip_does (h : p.Within text) :
    Does text E (skip text) p fun b p' =>
      (b = true → p.position < p'.position) ∧ (p.position < text.length → p.position < p'.position) := by
  refine (eof_does h).bind_same fun b hb => .ite (fun h_eof => ?_) fun h_eof => ?_
  · exact .pure h ⟨fun h_false => (by cases h_false), fun h_lt => absurd (hb.mp h_eof) (by omega)⟩
  · have h_lt : p.position < text.length := Nat.not_le.mp (hb.not.mp h_eof)
    exact (advance_does _ h h_lt).mono fun _ _ _ _ h_ahead => ⟨fun _ => h_ahead, fun _ => h_ahead⟩

theorem get_does (h : p.Within text) :
    Does text E (get text) p fun c p' =>
      (c ≠ 0 → p.position < p'.position) ∧ (p.position < text.length → p.position < p'.position) := by
  refine (eof_does h).bind_same fun b hb => .ite (fun h_eof => ?_) fun h_eof => ?_
  · exact .pure h ⟨fun h_zero => absurd rfl h_zero, fun h_lt => absurd (hb.mp h_eof) (by omega)⟩
  · have h_lt : p.position < text.length := Nat.not_le.mp (hb.not.mp h_eof)
    exact (advance_does _ h h_lt).mono fun _ _ _ _ h_ahead => ⟨fun _ => h_ahead, fun _ => h_ahead⟩

/-! ### Loops -/

/-- The loop goes on only further on. -/
def GoesOn (p : State) (r : Iteration α β) (p' : State) : Prop :=
  r.Post (fun _ => p.position < p'.position) fun _ => True

/-- A loop whose iterations move on ends. -/
theorem loop_does {body : α → Method (Iteration α β)} (n : ℕ)
    (h_body : ∀ a p, p.Within text → n ≤ p.position → Does text E (body a) p (GoesOn p))
    {fuel : ℕ} (h_fuel : text.length - p.position < fuel) (a : α) (h : p.Within text)
    (hn : n ≤ p.position) : Does text E (Proc.loop .endless body fuel a) p fun _ _ => True := by
  have h_variant : ∀ a (p : State), p.Within text → n ≤ p.position →
      Does text E (body a) p fun r p' => r.Post (fun _ => n ≤ p'.position ∧
        text.length - p'.position < text.length - p.position) fun _ => True := by
    intro a p h hn
    refine (h_body a p h hn).mono fun r p' h_within _ h_post => ?_
    cases r with
    | goOn a' =>
      have h_lt : p.position < p'.position := h_post
      have h_le := h_within.1
      exact ⟨by omega, by omega⟩
    | leave b => trivial
  exact Runs.loop (J := fun _ p => n ≤ p.position) State.Before.refl State.Before.trans
    (fun p => text.length - p.position) h_variant fuel a p h hn h_fuel

/-- The bound suffices from anywhere. -/
theorem lt_bound (text : Str) (p : State) : text.length - p.position < bound text := by
  unfold bound
  omega

theorem consumeBody_does (valid : List UInt8) (data : Str) (h : p.Within text) :
    Does text E (consumeBody text valid data) p (GoesOn p) := by
  refine (peek_does h).bind_same fun c _ => .ite (fun _ => ?_) fun _ => .pure h trivial
  refine (peek_does h).bind_same fun c' _ => (skip_does h).bind fun b p' h' _ h_skip => ?_
  exact .ite (fun hb => .pure h' (h_skip.1 hb)) fun _ => .pure h' trivial

/-- Where there is something to consume. -/
theorem consume_ahead {valid : List UInt8} (h : p.Within text) (h_lt : p.position < text.length)
    (h_valid : ∀ c, (peek text p).1 = .ok c → c ∈ valid) :
    Does text E (consume text valid) p fun _ p' => p.position < p'.position := by
  -- the first iteration
  have h_first : Does text E (consumeBody text valid []) p fun _ p' => p.position < p'.position := by
    refine (peek_does h).bind_same fun c hc => .ite (fun _ => ?_) fun h_not => ?_
    · refine (peek_does h).bind_same fun c' _ => (skip_does h).bind fun b p' h' _ h_skip => ?_
      exact .ite (fun _ => .pure h' (h_skip.2 h_lt)) fun _ => .pure h' (h_skip.2 h_lt)
    · exact absurd (h_valid c hc.1) h_not
  refine h_first.bind fun r p' h' _ h_ahead => ?_
  cases r with
  | goOn data =>
    have h_fuel : text.length - p'.position < text.length := by omega
    have h_rest := loop_does (E := E) 0 (fun data _ h _ => consumeBody_does valid data h) h_fuel data
      h' (Nat.zero_le _)
    exact (h_rest.ahead h_ahead).mono fun _ _ _ _ h => h.1
  | leave data => exact .pure h' h_ahead

theorem skipBody_does (valid : List UInt8) (h : p.Within text) :
    Does text E (skipBody text valid ()) p (GoesOn p) := by
  refine (peek_does h).bind_same fun c _ => .ite (fun _ => ?_) fun _ => .pure h trivial
  refine (skip_does h).bind fun b p' h' _ h_skip => ?_
  exact .ite (fun hb => .pure h' (h_skip.1 hb)) fun _ => .pure h' trivial

theorem skipWhitespace_does (h : p.Within text) :
    Does text E (skipWhitespace text) p fun _ _ => True :=
  loop_does 0 (fun _ _ h _ => skipBody_does validWhitespace h) (lt_bound text p) () h (Nat.zero_le _)

/-! ### Strings -/

/-- An iteration that begins within the text and goes on has moved on. -/
theorem stringBody_does (s : Str) (h : p.Within text) :
    Does text E (stringBody text s) p (GoesOn p) := by
  refine (eof_does h).bind_same fun b hb => .ite (fun _ => ?_) fun h_eof => ?_
  · exact (reportError_does h).bind_same fun _ _ => .pure h trivial
  have h_lt : p.position < text.length := Nat.not_le.mp (hb.not.mp h_eof)
  refine (peek_does h).bind_same fun c _ => .ite (fun _ => ?_) fun _ => ?_
  · exact (skip_does h).bind fun _ p' h' _ _ => .pure h' trivial
  refine (peek_does h).bind_same fun c _ => .ite (fun _ => ?_) fun _ => ?_
  · -- the backslash is skipped, and from there on the position does not go back
    refine (skip_does h).bind fun _ p₁ h₁ _ h_skip => ?_
    have h_lt₁ : p.position < p₁.position := h_skip.2 h_lt
    refine ((get_does h₁).ahead h_lt₁).bind fun c p₂ h₂ _ ⟨h_lt₂, _⟩ => .ite (fun _ => ?_) fun _ => ?_
    · refine ((get_does h₂).ahead h_lt₂).bind fun _ p₃ h₃ _ ⟨h_lt₃, _⟩ => ?_
      refine ((get_does h₃).ahead h_lt₃).bind fun _ p₄ h₄ _ ⟨h_lt₄, _⟩ => ?_
      refine ((get_does h₄).ahead h_lt₄).bind fun _ p₅ h₅ _ ⟨h_lt₅, _⟩ => ?_
      refine ((get_does h₅).ahead h_lt₅).bind fun _ p₆ h₆ _ ⟨h_lt₆, _⟩ => ?_
      refine .ite (fun _ => .pure h₆ h_lt₆) fun _ => ?_
      exact (reportError_does h₆).bind_same fun _ _ => .pure h₆ trivial
    · exact .pure h₂ h_lt₂
  · exact (get_does h).bind fun _ p' h' _ h_get => .pure h' (h_get.2 h_lt)

/-- Behind a quote, or where there is no quote, the position has moved on, unless it was the end. -/
theorem obtainString_does (h : p.Within text) :
    Does text E (obtainString text) p fun s p' =>
      (s ≠ none → p.position < p'.position) ∧ (p.position < text.length → p.position < p'.position) := by
  refine (get_does h).bind fun c p₁ h₁ _ h_get => .ite (fun hc => ?_) fun hc => ?_
  · have h_lt : p.position < p₁.position := h_get.1 (by rw [hc]; decide)
    have h_loop : Does text E (Proc.loop .endless (stringBody text) (bound text) []) p₁ fun _ _ => True :=
      loop_does 0 (fun s _ h _ => stringBody_does s h) (lt_bound text p₁) [] h₁ (Nat.zero_le _)
    exact (h_loop.ahead h_lt).mono fun _ _ _ _ h_ahead => ⟨fun _ => h_ahead.1, fun _ => h_ahead.1⟩
  · exact .pure h₁ ⟨fun h_none => absurd rfl h_none, h_get.2⟩

/-! ### Values -/

/-- A method yields a value only further on. -/
def Strict (p : State) (v : Option α) (p' : State) : Prop :=
  v ≠ none → p.position < p'.position

theorem assertConsume_does (v : Value ν) (expect : Str) (h : p.Within text) :
    Does text E (assertConsume text v expect) p fun v' p' =>
      expect ≠ [] → Strict p v' p' := by
  induction expect generalizing p with
  | nil => exact .pure h fun h_nil => absurd rfl h_nil
  | cons c expect ih =>
    refine (peek_does h).bind_same fun c' _ => .ite (fun _ => ?_) fun _ => ?_
    · refine (skip_does h).bind fun b p₁ h₁ _ h_skip => .ite (fun hb => ?_) fun _ => ?_
      · exact ((ih h₁).ahead (h_skip.1 hb)).mono fun _ _ _ _ h_ahead _ _ => h_ahead.1
      · exact .pure h₁ fun _ h_none => absurd rfl h_none
    · exact .pure h fun _ h_none => absurd rfl h_none

variable (strtof : Str → ν)

theorem obtainNumber_does (h : p.Within text) (h_lt : p.position < text.length)
    (h_valid : ∀ c, (peek text p).1 = .ok c → c ∈ validNumber) :
    Does text E (obtainNumber text strtof) p (Strict p) :=
  (consume_ahead h h_lt h_valid).bind fun _ _ h' _ h_ahead => .pure h' fun _ => h_ahead

section Nested

variable {value : Method (Option (Value ν))} {n : ℕ}
  (h_value : ∀ p, p.Within text → n ≤ p.position → Does text E value p (Strict p))

include h_value in
/-- An iteration that goes on has read an element. -/
theorem arrayBody_does (array : List (Value ν)) (h : p.Within text) (hn : n ≤ p.position) :
    Does text E (arrayBody text value array) p (GoesOn p) := by
  refine (eof_does h).bind_same fun b _ => .ite (fun _ => ?_) fun _ => ?_
  · exact (reportError_does h).bind_same fun _ _ => .pure h trivial
  refine (peek_does h).bind_same fun c _ => .ite (fun _ => ?_) fun _ => ?_
  · exact (skip_does h).bind fun _ p' h' _ _ => .pure h' trivial
  refine (h_value p h hn).bind fun v p₁ h₁ _ h_v => ?_
  cases v with
  | none => exact (reportError_does h₁).bind_same fun _ _ => .pure h₁ trivial
  | some v =>
    have h_lt₁ : p.position < p₁.position := h_v (by simp)
    refine ((skipWhitespace_does h₁).ahead h_lt₁).bind fun _ p₂ h₂ _ ⟨h_lt₂, _⟩ => ?_
    refine (peek_does h₂).bind_same fun c _ => .ite (fun _ => .pure h₂ h_lt₂) fun _ => ?_
    refine (peek_does h₂).bind_same fun c _ => .ite (fun _ => ?_) fun _ => ?_
    · refine ((skip_does h₂).ahead h_lt₂).bind fun _ p₃ h₃ _ ⟨h_lt₃, _⟩ => ?_
      exact ((skipWhitespace_does h₃).ahead h_lt₃).bind fun _ p₄ h₄ _ ⟨h_lt₄, _⟩ => .pure h₄ h_lt₄
    · exact (reportError_does h₂).bind_same fun _ _ => .pure h₂ trivial

theorem memberEnd_does (object : List (Str × Option (Value ν))) (h : p.Within text) {m : ℕ}
    (h_lt : m < p.position) :
    Does text E (memberEnd text object) p fun r p' =>
      r.Post (fun _ => m < p'.position) fun _ => True := by
  refine (peek_does h).bind_same fun c _ => .ite (fun _ => .pure h h_lt) fun _ => ?_
  refine (peek_does h).bind_same fun c _ => .ite (fun _ => ?_) fun _ => ?_
  · refine ((skip_does h).ahead h_lt).bind fun _ p₁ h₁ _ ⟨h_lt₁, _⟩ => ?_
    exact ((skipWhitespace_does h₁).ahead h_lt₁).bind fun _ p₂ h₂ _ ⟨h_lt₂, _⟩ => .pure h₂ h_lt₂
  · exact (reportError_does h).bind_same fun _ _ => .pure h h_lt

include h_value in
/-- An iteration that goes on has read a key, or what stood in its place. -/
theorem objectBody_does (hE : E .nullKey) (object : List (Str × Option (Value ν)))
    (h : p.Within text) (hn : n ≤ p.position) :
    Does text E (objectBody text value object) p (GoesOn p) := by
  refine (eof_does h).bind_same fun b hb => .ite (fun _ => ?_) fun h_eof => ?_
  · exact (reportError_does h).bind_same fun _ _ => .pure h trivial
  have h_lt : p.position < text.length := Nat.not_le.mp (hb.not.mp h_eof)
  refine (peek_does h).bind_same fun c _ => .ite (fun _ => ?_) fun _ => ?_
  · exact (skip_does h).bind fun _ p' h' _ _ => .pure h' trivial
  refine (obtainString_does h).bind fun key p₁ h₁ _ h_key => ?_
  have h_lt₁ : p.position < p₁.position := h_key.2 h_lt
  refine ((skipWhitespace_does h₁).ahead h_lt₁).bind fun _ p₂ h₂ _ ⟨h_lt₂, _⟩ => ?_
  refine ((get_does h₂).ahead h_lt₂).bind fun c p₃ h₃ _ ⟨h_lt₃, _⟩ => .ite (fun _ => ?_) fun _ => ?_
  · refine ((skipWhitespace_does h₃).ahead h_lt₃).bind fun _ p₄ h₄ _ ⟨h_lt₄, _⟩ => ?_
    refine ((h_value p₄ h₄ (by omega)).ahead h_lt₄).bind fun v p₅ h₅ _ ⟨h_lt₅, _⟩ => ?_
    refine ((skipWhitespace_does h₅).ahead h_lt₅).bind fun _ p₆ h₆ _ ⟨h_lt₆, _⟩ => ?_
    cases key with
    | none => exact .throw h₆ hE
    | some key => exact memberEnd_does _ h₆ h_lt₆
  · exact (reportError_does h₃).bind_same fun _ _ => .pure h₃ trivial

end Nested

/-- Behind the bracket. -/
theorem obtainArray_does {value : Method (Option (Value ν))} (h : p.Within text)
    (h_value : ∀ p', p'.Within text → p.position + 1 ≤ p'.position →
      Does text E value p' (Strict p')) :
    Does text E (obtainArray text value) p (Strict p) := by
  refine (get_does h).bind fun c p₁ h₁ _ h_get => .ite (fun hc => ?_) fun _ => ?_
  · have h_lt₁ : p.position < p₁.position := h_get.1 (by rw [hc]; decide)
    refine ((skipWhitespace_does h₁).ahead h_lt₁).bind fun _ p₂ h₂ _ ⟨h_lt₂, _⟩ => ?_
    have h_loop := loop_does (E := E) (p.position + 1)
      (fun array _ h hn => arrayBody_does h_value array h hn) (lt_bound text p₂) [] h₂ h_lt₂
    exact (h_loop.ahead h_lt₂).mono fun _ _ _ _ h_ahead _ => h_ahead.1
  · exact .pure h₁ fun h_none => absurd rfl h_none

theorem obtainObject_does (hE : E .nullKey) {value : Method (Option (Value ν))} (h : p.Within text)
    (h_value : ∀ p', p'.Within text → p.position + 1 ≤ p'.position →
      Does text E value p' (Strict p')) :
    Does text E (obtainObject text value) p (Strict p) := by
  refine (get_does h).bind fun c p₁ h₁ _ h_get => .ite (fun hc => ?_) fun _ => ?_
  · have h_lt₁ : p.position < p₁.position := h_get.1 (by rw [hc]; decide)
    refine ((skipWhitespace_does h₁).ahead h_lt₁).bind fun _ p₂ h₂ _ ⟨h_lt₂, _⟩ => ?_
    have h_loop := loop_does (E := E) (p.position + 1)
      (fun object _ h hn => objectBody_does h_value hE object h hn) (lt_bound text p₂) [] h₂ h_lt₂
    exact (h_loop.ahead h_lt₂).mono fun _ _ _ _ h_ahead _ => h_ahead.1
  · exact (reportError_does h₁).bind_same fun _ _ => .pure h₁ fun h_none => absurd rfl h_none

/-- **`ObtainValue`** moves forward within the text, and on if it finds a value. It is not cut off if the
bound on the depth exceeds what is left of the text. -/
theorem obtainValue_does (hE : E .nullKey) (k : ℕ) (h : p.Within text)
    (hk : text.length - p.position < k ∨ E .endless) :
    Does text E (obtainValue text strtof k) p (Strict p) := by
  induction k generalizing p with
  | zero =>
    obtain hk | hk := hk
    · exact absurd hk (Nat.not_lt_zero _)
    · exact .throw h hk
  | succ k ih =>
    have h_nested : ∀ p', p'.Within text → p.position + 1 ≤ p'.position →
        Does text E (obtainValue text strtof k) p' (Strict p') := by
      intro p' h' h_lt
      have h_le := h'.1
      exact ih h' (hk.imp_left fun hk => by omega)
    have h_literal : ∀ (v : Value ν) (expect : Str), expect ≠ [] →
        Does text E (assertConsume text v expect) p (Strict p) := by
      intro v expect h_ne
      exact (assertConsume_does v expect h).mono fun _ _ _ _ h_strict => h_strict h_ne
    refine (peek_does h).bind_same fun c ⟨hc, h_lt⟩ => ?_
    refine .ite (fun _ => h_literal _ _ (by decide)) fun _ => ?_
    refine .ite (fun _ => h_literal _ _ (by decide)) fun _ => ?_
    refine .ite (fun _ => h_literal _ _ (by decide)) fun _ => .ite (fun h_number => ?_) fun _ => ?_
    · refine obtainNumber_does strtof h (h_lt fun h_zero => ?_) fun c' hc' => ?_
      · rw [h_zero] at h_number
        exact absurd h_number (by decide)
      · have h_sub : ∀ b ∈ str "-0123456789+", b ∈ validNumber := by decide +kernel
        obtain rfl := Except.ok.inj (hc'.symm.trans hc)
        exact h_sub _ h_number
    refine .ite (fun _ => obtainArray_does h h_nested) fun _ => ?_
    refine .ite (fun _ => obtainObject_does hE h h_nested) fun _ => .ite (fun _ => ?_) fun _ => ?_
    · refine (obtainString_does h).bind fun s p' h' _ h_s => .pure h' fun h_some => h_s.1 fun h_none => ?_
      rw [h_none] at h_some
      exact h_some rfl
    · exact .pure h fun h_none => absurd rfl h_none

/-! ### Runs of `Parse` -/

/-- A run ends with a result or with a key that is missing. -/
theorem parseJsonText_does (text : Str) :
    Does text (· = .nullKey) (parseJsonText text strtof) .initial fun _ _ => True := by
  refine (skipWhitespace_does (State.initial_within text)).bind fun _ p₁ h₁ _ _ => ?_
  have h_value : Does text (· = .nullKey) (obtainValue text strtof (bound text)) p₁ (Strict p₁) :=
    obtainValue_does (E := (· = .nullKey)) strtof rfl (bound text) h₁ (.inl (lt_bound text p₁))
  refine h_value.bind fun v p₂ h₂ _ _ => ?_
  exact (skipWhitespace_does h₂).bind fun _ p₃ h₃ _ _ => .pure h₃ trivial

/-- **`Parse` ends, within bounds.** A run ends with a result or with a null key, and not for want of
iterations or in `substr`; the values of `position_` never decrease, and none of them exceeds the size
of the text. From any such state, a call of `ObtainValue` that returns a value and an iteration after
which one of the loops goes on leave `position_` further on. -/
theorem parse_in_bounds (text : Str) :
    (∀ e, (parse text strtof).1 = .error e → e = .nullKey) ∧
      (parse text strtof).2.trail.Pairwise (· ≥ ·) ∧
      (∀ q ∈ (parse text strtof).2.trail, q ≤ text.length) ∧
      ∀ p : State, p.Within text →
        (∀ k v, (obtainValue text strtof k p).1 = .ok (some v) →
          p.position < (obtainValue text strtof k p).2.position) ∧
        (∀ k object object', (objectBody text (obtainValue text strtof k) object p).1 = .ok (.goOn object') →
          p.position < (objectBody text (obtainValue text strtof k) object p).2.position) ∧
        (∀ k array array', (arrayBody text (obtainValue text strtof k) array p).1 = .ok (.goOn array') →
          p.position < (arrayBody text (obtainValue text strtof k) array p).2.position) ∧
        ∀ s s', (stringBody text s p).1 = .ok (.goOn s') →
          p.position < (stringBody text s p).2.position := by
  have h_run := parseJsonText_does strtof text
  refine ⟨h_run.fault, h_run.inv.2, fun q hq => Nat.le_trans (h_run.inv.le_of_mem hq) h_run.inv.1,
    fun p h => ?_⟩
  -- any bound on the depth will do for a single call
  have h_value : ∀ k p, p.Within text → 0 ≤ p.position →
      Does text (fun _ => True) (obtainValue text strtof k) p (Strict p) :=
    fun k p h _ => obtainValue_does strtof trivial k h (.inr trivial)
  refine ⟨fun k v h_eq => ?_, fun k object object' h_eq => ?_, fun k array array' h_eq => ?_,
    fun s s' h_eq => ?_⟩
  · exact (h_value k p h (Nat.zero_le _)).post _ h_eq (by simp)
  · exact (objectBody_does (h_value k) trivial object h (Nat.zero_le _)).post _ h_eq
  · exact (arrayBody_does (h_value k) array h (Nat.zero_le _)).post _ h_eq
  · have h_body : Does text (fun _ => True) (stringBody text s) p (GoesOn p) := stringBody_does s h
    exact h_body.post _ h_eq

end GitlstreeFS.Jjson.Parser
