import GitlstreeFS.Jjson.Events
import GitlstreeFS.Jjson.Progress

/-!
# The parser and the text that is left

`Parser.lean` has the text that is left in place of `text_` and `position_`, and a bound on its calls;
`Position.lean` has the two, and bounds on its loops and on the depth of nested values. Here each method of
the latter is shown to do what that of the former does (`Agrees`), as long as neither is cut off, which
`parseJsonText_agrees` rules out for a whole run.
-/

namespace GitlstreeFS.Jjson.Parser

open Effect

variable {ν : Type} {α β : Type} {text s : Str} {p p' : State}

/-- What is left of the text at `p` is `s`. -/
structure At (text : Str) (p : State) (s : Str) : Prop where
  le : p.position ≤ text.length
  drop : text.drop p.position = s

theorem At.nil_iff (h : At text p s) : s = [] ↔ text.length ≤ p.position := by
  rw [← h.drop, List.drop_eq_nil_iff]

theorem At.lt {b : UInt8} (h : At text p (b :: s)) : p.position < text.length := by
  by_contra h_le
  exact List.cons_ne_nil _ _ (h.nil_iff.mpr (Nat.not_lt.mp h_le))

/-- The next character. -/
theorem At.getD {b : UInt8} (h : At text p (b :: s)) : text.getD p.position 0 = b := by
  have h_cons := List.drop_eq_getElem_cons h.lt
  rw [h.drop] at h_cons
  rw [List.getD_eq_getElem?_getD, List.getElem?_eq_getElem h.lt, Option.getD_some, ← (List.cons.inj h_cons).1]

theorem At.advance {b : UInt8} (h : At text p (b :: s)) : At text p.advance s := by
  refine ⟨h.lt, ?_⟩
  have h_tail : (text.drop p.position).tail = s := by rw [h.drop, List.tail_cons]
  rwa [List.tail_drop] at h_tail

/-- The method has come to what `r` says, with the text that is left then, unless it was cut off. -/
def Agrees (text : Str) (x : Except Halt α × State) (r : Except Fault (α × Str)) : Prop :=
  match r with
  | .ok (a, s) => x.1 = .error .endless ∨ x.1 = .ok a ∧ At text x.2 s
  | .error .nullKey => x.1 = .error .endless ∨ x.1 = .error .nullKey
  | .error .depth => True

variable {m : Method α} {f : α → Method β} {a : α} {r : Except Fault (β × Str)}

theorem Agrees.pure (h : At text p s) (a : α) : Agrees text ((pure a : Method α) p) (.ok (a, s)) :=
  .inr ⟨rfl, h⟩

/-- One method after the other. -/
theorem Agrees.bind (h : Agrees text (m p) (.ok (a, s)))
    (h_next : ∀ p', At text p' s → Agrees text (f a p') r) : Agrees text ((m >>= f) p) r := by
  rw [Proc.bind_apply]
  rcases h_m : m p with ⟨x, p'⟩
  rw [h_m] at h
  obtain h_cut | ⟨h_ok, h_at⟩ := h
  · obtain rfl : x = .error .endless := h_cut
    rcases r with (_ | _) | ⟨b, s'⟩
    · exact .inl rfl
    · trivial
    · exact .inl rfl
  · obtain rfl : x = .ok a := h_ok
    exact h_next p' h_at

/-- Nothing comes after a fault. -/
theorem Agrees.bind_error {e : Fault} (h : Agrees text (m p) (.error e)) :
    Agrees text ((m >>= f) p) (.error e) := by
  cases e with
  | depth => trivial
  | nullKey =>
    rw [Proc.bind_apply]
    rcases h_m : m p with ⟨x, p'⟩
    rw [h_m] at h
    obtain h_cut | h_null := h
    · obtain rfl : x = .error .endless := h_cut
      exact .inl rfl
    · obtain rfl : x = .error .nullKey := h_null
      exact .inr rfl

/-- A loop that is cut off at once. -/
theorem Agrees.cut {r : Except Fault (α × Str)} :
    Agrees text ((Proc.throw .endless : Method α) p) r := by
  rcases r with (_ | _) | ⟨a, s⟩
  · exact .inl rfl
  · trivial
  · exact .inl rfl

section Branches

variable {c : Prop} [Decidable c] {m' : Method α} {r : Except Fault (α × Str)}

theorem Agrees.pos (hc : c) (h : Agrees text (m p) r) : Agrees text ((if c then m else m') p) r := by
  rwa [if_pos hc]

theorem Agrees.ite {r' : Except Fault (α × Str)} (h : c → Agrees text (m p) r)
    (h' : ¬ c → Agrees text (m' p) r') :
    Agrees text ((if c then m else m') p) (if c then r else r') := by
  split
  · next hc => exact h hc
  · next hc => exact h' hc

theorem Agrees.neg (hc : ¬ c) (h : Agrees text (m' p) r) : Agrees text ((if c then m else m') p) r := by
  rwa [if_neg hc]

end Branches

/-- A loop goes on. -/
theorem Agrees.goOn {cut : Halt} {body : α → Method (Iteration α β)} {n : ℕ} {a' : α}
    (h : Agrees text (body a p) (.ok (.goOn a', s)))
    (h_rest : ∀ p', At text p' s → Agrees text (Proc.loop cut body n a' p') r) :
    Agrees text (Proc.loop cut body (n + 1) a p) r :=
  h.bind h_rest

/-- A loop is left. -/
theorem Agrees.leave {cut : Halt} {body : α → Method (Iteration α β)} {n : ℕ} {b : β}
    (h : Agrees text (body a p) (.ok (.leave b, s))) :
    Agrees text (Proc.loop cut body (n + 1) a p) (.ok (b, s)) :=
  h.bind fun _ h => .pure h b

/-! ### Characters -/

theorem eof_agrees (h : At text p s) : Agrees text (eof text p) (.ok (decide (s = []), s)) := by
  refine .inr ⟨congrArg Except.ok ?_, h⟩
  exact decide_eq_decide.mpr h.nil_iff.symm

theorem peek_agrees (h : At text p s) : Agrees text (peek text p) (.ok (Jjson.peek s, s)) := by
  refine (eof_agrees h).bind fun p h => ?_
  cases s with
  | nil => exact .pure h 0
  | cons b s => exact .inr ⟨congrArg Except.ok h.getD, h⟩

theorem skip_agrees (h : At text p s) :
    Agrees text (skip text p) (.ok (decide (s ≠ []), s.tail)) := by
  refine (eof_agrees h).bind fun p h => ?_
  cases s with
  | nil => exact .pure h false
  | cons b s => exact .inr ⟨rfl, h.advance⟩

theorem get_agrees (h : At text p s) : Agrees text (get text p) (.ok (Jjson.peek s, s.tail)) := by
  refine (eof_agrees h).bind fun p h => ?_
  cases s with
  | nil => exact .pure h 0
  | cons b s => exact .inr ⟨congrArg Except.ok h.getD, h.advance⟩

theorem reportError_agrees (h : At text p s) : Agrees text (reportError text p) (.ok ((), s)) :=
  .inr ⟨if_neg (Nat.not_lt.mpr h.le), h⟩

/-- The loop of `Consume`, by induction on its bound. -/
theorem consumeLoop_agrees {valid : List UInt8} (h_zero : 0 ∉ valid) (n : ℕ) (data : Str) (h : At text p s) :
    Agrees text (Proc.loop .endless (consumeBody text valid) n data p)
      (.ok (data ++ s.takeWhile (· ∈ valid), s.dropWhile (· ∈ valid))) := by
  induction n generalizing data p s with
  | zero => exact .cut
  | succ n ih =>
    by_cases h_mem : Jjson.peek s ∈ valid
    · obtain ⟨b, s, rfl⟩ : ∃ b s', s = b :: s' := by
        refine List.exists_cons_of_ne_nil ?_
        rintro rfl
        exact h_zero h_mem
      have h_body : Agrees text (consumeBody text valid data p) (.ok (.goOn (data ++ [b]), s)) := by
        refine (peek_agrees h).bind fun p h => .pos h_mem ?_
        exact (peek_agrees h).bind fun p h => (skip_agrees h).bind fun p h => .pure h _
      refine h_body.goOn fun p h => ?_
      have h_loop := ih (data ++ [b]) h
      have h_b : decide (b ∈ valid) = true := decide_eq_true h_mem
      rw [List.append_assoc, List.singleton_append] at h_loop
      rwa [List.takeWhile_cons_of_pos (p := (· ∈ valid)) h_b, List.dropWhile_cons_of_pos (p := (· ∈ valid)) h_b]
    · have h_body : Agrees text (consumeBody text valid data p) (.ok (.leave data, s)) := by
        refine (peek_agrees h).bind fun p h => ?_
        rw [if_neg h_mem]
        exact .pure h _
      have h_none : s.takeWhile (· ∈ valid) = [] ∧ s.dropWhile (· ∈ valid) = s := by
        cases s with
        | nil => exact ⟨rfl, rfl⟩
        | cons b s =>
          have h_b : ¬ decide (b ∈ valid) = true := of_decide_eq_true.mt h_mem
          exact ⟨List.takeWhile_cons_of_neg h_b, List.dropWhile_cons_of_neg h_b⟩
      rw [h_none.1, h_none.2, List.append_nil]
      exact h_body.leave

theorem consume_agrees {valid : List UInt8} (h_zero : 0 ∉ valid) (h : At text p s) :
    Agrees text (consume text valid p) (.ok (Jjson.consume valid s)) := by
  rw [Jjson.consume, List.span_eq_takeWhile_dropWhile]
  exact consumeLoop_agrees h_zero (bound text) [] h

theorem skipLoop_agrees {valid : List UInt8} (h_zero : 0 ∉ valid) (n : ℕ) (h : At text p s) :
    Agrees text (Proc.loop .endless (skipBody text valid) n () p) (.ok ((), s.dropWhile (· ∈ valid))) := by
  induction n generalizing p s with
  | zero => exact .cut
  | succ n ih =>
    by_cases h_mem : Jjson.peek s ∈ valid
    · obtain ⟨b, s, rfl⟩ : ∃ b s', s = b :: s' := by
        refine List.exists_cons_of_ne_nil ?_
        rintro rfl
        exact h_zero h_mem
      have h_body : Agrees text (skipBody text valid () p) (.ok (.goOn (), s)) :=
        (peek_agrees h).bind fun p h => .pos h_mem ((skip_agrees h).bind fun p h => .pure h _)
      refine h_body.goOn fun p h => ?_
      have h_b : decide (b ∈ valid) = true := decide_eq_true h_mem
      rw [List.dropWhile_cons_of_pos (p := (· ∈ valid)) h_b]
      exact ih h
    · have h_body : Agrees text (skipBody text valid () p) (.ok (.leave (), s)) := by
        refine (peek_agrees h).bind fun p h => ?_
        rw [if_neg h_mem]
        exact .pure h _
      have h_none : s.dropWhile (· ∈ valid) = s := by
        cases s with
        | nil => rfl
        | cons b s => exact List.dropWhile_cons_of_neg (of_decide_eq_true.mt h_mem)
      rw [h_none]
      exact h_body.leave

theorem skipWhitespace_agrees (h : At text p s) :
    Agrees text (skipWhitespace text p) (.ok ((), Jjson.skipWhitespace s)) :=
  skipLoop_agrees (by decide) (bound text) h

/-! ### Strings -/

/-- What is made of the four characters behind `\u`; those behind the end are zero. -/
def fourDigits (s : Str) : ℤ :=
  charcode (Jjson.peek s) (Jjson.peek s.tail) (Jjson.peek s.tail.tail) (Jjson.peek s.tail.tail.tail)

section Code

variable (acc : Str) (h : At text p (0x5c :: 0x75 :: s))

include h

theorem stringBody_code (h_range : 0 ≤ fourDigits s ∧ fourDigits s < 256) :
    Agrees text (stringBody text acc p)
      (.ok (.goOn (acc ++ [UInt8.ofNat (fourDigits s).toNat]), s.tail.tail.tail.tail)) := by
  refine (eof_agrees h).bind fun p h => (peek_agrees h).bind fun p h => (peek_agrees h).bind fun p h => ?_
  refine (skip_agrees h).bind fun p h => (get_agrees h).bind fun p h => (get_agrees h).bind fun p h => ?_
  refine (get_agrees h).bind fun p h => (get_agrees h).bind fun p h => (get_agrees h).bind fun p h => ?_
  exact .pos h_range (.pure h _)

theorem stringBody_noCode (h_range : ¬ (0 ≤ fourDigits s ∧ fourDigits s < 256)) :
    Agrees text (stringBody text acc p) (.ok (.leave none, s.tail.tail.tail.tail)) := by
  refine (eof_agrees h).bind fun p h => (peek_agrees h).bind fun p h => (peek_agrees h).bind fun p h => ?_
  refine (skip_agrees h).bind fun p h => (get_agrees h).bind fun p h => (get_agrees h).bind fun p h => ?_
  refine (get_agrees h).bind fun p h => (get_agrees h).bind fun p h => (get_agrees h).bind fun p h => ?_
  exact .neg h_range ((reportError_agrees h).bind fun p h => .pure h _)

end Code

/-- The loop of `ObtainString`, by induction on its bound. -/
theorem stringLoop_agrees (n : ℕ) (acc : Str) (h : At text p s) :
    Agrees text (Proc.loop .endless (stringBody text) n acc p) (.ok (stringLoop acc s)) := by
  induction n generalizing acc p s with
  | zero => exact .cut
  | succ n ih =>
    -- the end of the text, wherever it comes
    have h_end (acc : Str) {p : State} (h : At text p []) :
        Agrees text (Proc.loop .endless (stringBody text) n acc p) (.ok (none, [])) := by
      have h_loop := ih acc h
      rwa [stringLoop] at h_loop
    fun_cases stringLoop acc s
    case case1 =>
      refine Agrees.leave ((eof_agrees h).bind fun p h => ?_)
      exact (reportError_agrees h).bind fun p h => .pure h _
    case case2 s =>
      refine Agrees.leave ((eof_agrees h).bind fun p h => (peek_agrees h).bind fun p h => ?_)
      exact (skip_agrees h).bind fun p h => .pure h _
    case case3 h₁ h₂ h₃ h₄ s h_range => exact (stringBody_code acc h h_range).goOn fun p h => ih _ h
    case case4 h₁ h₂ h₃ h₄ s h_range => exact (stringBody_noCode acc h h_range).leave
    case case5 s h_four =>
      -- the four digits end with the text
      have h_nil : s.tail.tail.tail.tail = [] := by
        rcases s with _ | ⟨h₁, _ | ⟨h₂, _ | ⟨h₃, _ | ⟨h₄, s⟩⟩⟩⟩
        · rfl
        · rfl
        · rfl
        · rfl
        · exact (h_four h₁ h₂ h₃ h₄ s rfl).elim
      by_cases h_range : 0 ≤ fourDigits s ∧ fourDigits s < 256
      · exact (stringBody_code acc h h_range).goOn fun p h => h_end _ (h_nil ▸ h)
      · have h_body := stringBody_noCode acc h h_range
        rw [h_nil] at h_body
        exact h_body.leave
    case case6 c s h_four h_u =>
      have h_body : Agrees text (stringBody text acc p) (.ok (.goOn (acc ++ escaped c), s)) := by
        refine (eof_agrees h).bind fun p h => (peek_agrees h).bind fun p h => (peek_agrees h).bind fun p h => ?_
        refine (skip_agrees h).bind fun p h => (get_agrees h).bind fun p h => ?_
        exact .neg h_u (.pure h _)
      exact h_body.goOn fun p h => ih _ h
    case case7 =>
      have h_body : Agrees text (stringBody text acc p) (.ok (.goOn (acc ++ escaped 0), [])) := by
        refine (eof_agrees h).bind fun p h => (peek_agrees h).bind fun p h => (peek_agrees h).bind fun p h => ?_
        exact (skip_agrees h).bind fun p h => (get_agrees h).bind fun p h => .pure h _
      exact h_body.goOn fun p h => h_end _ h
    case case8 b s h_quote h_four h_short h_escape h_last =>
      have h_backslash : b ≠ 0x5c := by
        rintro rfl
        cases s with
        | nil => exact h_last rfl rfl
        | cons c s => exact h_escape c s rfl rfl
      have h_body : Agrees text (stringBody text acc p) (.ok (.goOn (acc ++ [b]), s)) := by
        refine (eof_agrees h).bind fun p h => (peek_agrees h).bind fun p h => .neg h_quote ?_
        refine (peek_agrees h).bind fun p h => .neg h_backslash ?_
        exact (get_agrees h).bind fun p h => .pure h _
      exact h_body.goOn fun p h => ih _ h

theorem obtainString_agrees (h : At text p s) :
    Agrees text (obtainString text p) (.ok (Jjson.obtainString s)) := by
  rw [Jjson.obtainString]
  by_cases h_quote : Jjson.peek s = 0x22
  · rw [if_pos h_quote]
    exact (get_agrees h).bind fun p h => .pos h_quote (stringLoop_agrees (bound text) [] h)
  · rw [if_neg h_quote]
    exact (get_agrees h).bind fun p h => .neg h_quote (.pure h _)

/-! ### Values -/

theorem assertConsume_agrees (v : Value ν) {expect : Str} (h_zero : 0 ∉ expect) (h : At text p s) :
    Agrees text (assertConsume text v expect p) (.ok (Jjson.assertConsume v expect s)) := by
  induction expect generalizing p s with
  | nil =>
    rw [Jjson.assertConsume]
    exact .pure h _
  | cons c expect ih =>
    have h_c : c ≠ 0 := fun h_eq => h_zero (h_eq ▸ List.mem_cons_self)
    cases s with
    | nil =>
      rw [Jjson.assertConsume]
      exact (peek_agrees h).bind fun p h => .neg h_c (.pure h _)
    | cons b s =>
      rw [Jjson.assertConsume]
      by_cases h_b : c = b
      · rw [if_pos h_b]
        refine (peek_agrees h).bind fun p h => .pos h_b ((skip_agrees h).bind fun p h => ?_)
        exact ih (fun h_mem => h_zero (List.mem_cons_of_mem _ h_mem)) h
      · rw [if_neg h_b]
        exact (peek_agrees h).bind fun p h => .neg h_b (.pure h _)

variable (strtof : Str → ν)

theorem obtainNumber_agrees (h : At text p s) :
    Agrees text (obtainNumber text strtof p) (.ok (Jjson.obtainNumber strtof s)) :=
  (consume_agrees (by decide) h).bind fun _ h => .pure h _

/-- What both loops begin with, where they neither come to the end of the text nor to the closing character. -/
theorem opening_agrees {close : UInt8} {end_ closed m : Method α} {r : Except Fault (α × Str)} (h : At text p s)
    (h_nil : s ≠ []) (h_close : Jjson.peek s ≠ close) (h_next : ∀ p', At text p' s → Agrees text (m p') r) :
    Agrees text ((do if ← eof text then end_ else if (← peek text) = close then closed else m : Method α) p) r :=
  (eof_agrees h).bind fun _ h => .neg (of_decide_eq_true.mt h_nil)
    ((peek_agrees h).bind fun p h => .neg h_close (h_next p h))

/-- The methods that call each other, with a bound `k` on the calls of the one model. -/
structure ValuesAgree (text : Str) (k : ℕ) : Prop where
  value : ∀ {d p s}, At text p s →
    Agrees text (obtainValue text strtof d p) (Jjson.obtainValue strtof k s)
  array : ∀ {d p s}, At text p s →
    Agrees text (obtainArray text (obtainValue text strtof d) p) (Jjson.obtainArray strtof k s)
  elements : ∀ {d n array p s}, At text p s →
    Agrees text (Proc.loop .endless (arrayBody text (obtainValue text strtof d)) n array p)
      (Jjson.elements strtof k array s)
  object : ∀ {d p s}, At text p s →
    Agrees text (obtainObject text (obtainValue text strtof d) p) (Jjson.obtainObject strtof k s)
  members : ∀ {d n object p s}, At text p s →
    Agrees text (Proc.loop .endless (objectBody text (obtainValue text strtof d)) n object p)
      (Jjson.members strtof k object s)

variable {strtof} {k d n : ℕ}

theorem ValuesAgree.value_succ (ih : ValuesAgree strtof text k) (h : At text p s) :
    Agrees text (obtainValue text strtof d p) (Jjson.obtainValue strtof (k + 1) s) := by
  cases d with
  | zero => exact .cut
  | succ d =>
    rw [Jjson.obtainValue]
    refine (peek_agrees h).bind fun p h => ?_
    refine .ite (fun _ => assertConsume_agrees _ (by decide) h) fun _ => ?_
    refine .ite (fun _ => assertConsume_agrees _ (by decide) h) fun _ => ?_
    refine .ite (fun _ => assertConsume_agrees _ (by decide) h) fun _ => ?_
    refine .ite (fun _ => obtainNumber_agrees strtof h) fun _ => ?_
    refine .ite (fun _ => ih.array h) fun _ => .ite (fun _ => ih.object h) fun _ => ?_
    refine .ite (fun _ => ?_) fun _ => ?_
    · exact (obtainString_agrees h).bind fun p h => .pure h _
    · exact .pure h _

theorem ValuesAgree.array_succ (ih : ValuesAgree strtof text k) (h : At text p s) :
    Agrees text (obtainArray text (obtainValue text strtof d) p) (Jjson.obtainArray strtof (k + 1) s) := by
  rw [Jjson.obtainArray]
  refine (get_agrees h).bind fun p h => ?_
  by_cases h_bracket : Jjson.peek s = 0x5b
  · rw [if_neg (not_not.mpr h_bracket)]
    exact .pos h_bracket ((skipWhitespace_agrees h).bind fun p h => ih.elements h)
  · rw [if_pos h_bracket]
    exact .neg h_bracket (.pure h _)

theorem ValuesAgree.elements_succ (ih : ValuesAgree strtof text k) {array : List (Value ν)} (h : At text p s) :
    Agrees text (Proc.loop .endless (arrayBody text (obtainValue text strtof d)) n array p)
      (Jjson.elements strtof (k + 1) array s) := by
  cases n with
  | zero => exact .cut
  | succ n =>
    rw [Jjson.elements]
    by_cases h_nil : s = []
    · rw [if_pos h_nil]
      refine Agrees.leave ((eof_agrees h).bind fun p h => .pos (decide_eq_true h_nil) ?_)
      exact (reportError_agrees h).bind fun p h => .pure h _
    rw [if_neg h_nil]
    by_cases h_bracket : Jjson.peek s = 0x5d
    · rw [if_pos h_bracket]
      refine Agrees.leave ((eof_agrees h).bind fun p h => .neg (of_decide_eq_true.mt h_nil) ?_)
      exact (peek_agrees h).bind fun p h => .pos h_bracket ((skip_agrees h).bind fun p h => .pure h _)
    rw [if_neg h_bracket]
    have h_value {p : State} (h : At text p s) := ih.value (d := d) h
    -- what `ObtainValue` comes to
    rcases h_res : Jjson.obtainValue strtof k s with e | ⟨_ | v, r⟩
    · rw [h_res] at h_value
      exact Agrees.bind_error (opening_agrees h h_nil h_bracket fun p h => (h_value h).bind_error)
    · rw [h_res] at h_value
      refine Agrees.leave (opening_agrees h h_nil h_bracket fun p h => (h_value h).bind fun p h => ?_)
      exact (reportError_agrees h).bind fun p h => .pure h _
    rw [h_res] at h_value
    dsimp only
    by_cases h_close : Jjson.peek (Jjson.skipWhitespace r) = 0x5d
    · rw [if_pos h_close]
      refine Agrees.goOn ?_ fun p h => ih.elements h
      refine opening_agrees h h_nil h_bracket fun p h => (h_value h).bind fun p h => ?_
      refine (skipWhitespace_agrees h).bind fun p h => ?_
      exact (peek_agrees h).bind fun p h => .pos h_close (.pure h _)
    rw [if_neg h_close]
    by_cases h_comma : Jjson.peek (Jjson.skipWhitespace r) = 0x2c
    · rw [if_pos h_comma]
      refine Agrees.goOn ?_ fun p h => ih.elements h
      refine opening_agrees h h_nil h_bracket fun p h => (h_value h).bind fun p h => ?_
      refine (skipWhitespace_agrees h).bind fun p h => ?_
      refine (peek_agrees h).bind fun p h => .neg h_close ((peek_agrees h).bind fun p h => .pos h_comma ?_)
      exact (skip_agrees h).bind fun p h => (skipWhitespace_agrees h).bind fun p h => .pure h _
    · rw [if_neg h_comma]
      refine Agrees.leave ?_
      refine opening_agrees h h_nil h_bracket fun p h => (h_value h).bind fun p h => ?_
      refine (skipWhitespace_agrees h).bind fun p h => ?_
      refine (peek_agrees h).bind fun p h => .neg h_close ((peek_agrees h).bind fun p h => .neg h_comma ?_)
      exact (reportError_agrees h).bind fun p h => .pure h _

theorem ValuesAgree.object_succ (ih : ValuesAgree strtof text k) (h : At text p s) :
    Agrees text (obtainObject text (obtainValue text strtof d) p) (Jjson.obtainObject strtof (k + 1) s) := by
  rw [Jjson.obtainObject]
  by_cases h_brace : Jjson.peek s = 0x7b
  · rw [if_neg (not_not.mpr h_brace)]
    refine (get_agrees h).bind fun p h => .pos h_brace ?_
    exact (skipWhitespace_agrees h).bind fun p h => ih.members h
  · rw [if_pos h_brace]
    refine (get_agrees h).bind fun p h => .neg h_brace ?_
    exact (reportError_agrees h).bind fun p h => .pure h _

/-- What follows a member. -/
def behindMember (s : Str) : Str :=
  if Jjson.peek s = 0x7d then s else if Jjson.peek s = 0x2c then Jjson.skipWhitespace s.tail else s

theorem memberEnd_agrees (object : List (Str × Option (Value ν))) (h : At text p s) :
    Agrees text (memberEnd text object p) (.ok (.goOn object, behindMember s)) := by
  rw [behindMember]
  by_cases h_close : Jjson.peek s = 0x7d
  · rw [if_pos h_close]
    exact (peek_agrees h).bind fun p h => .pos h_close (.pure h _)
  rw [if_neg h_close]
  by_cases h_comma : Jjson.peek s = 0x2c
  · rw [if_pos h_comma]
    refine (peek_agrees h).bind fun p h => .neg h_close ((peek_agrees h).bind fun p h => .pos h_comma ?_)
    exact (skip_agrees h).bind fun p h => (skipWhitespace_agrees h).bind fun p h => .pure h _
  · rw [if_neg h_comma]
    refine (peek_agrees h).bind fun p h => .neg h_close ((peek_agrees h).bind fun p h => .neg h_comma ?_)
    exact (reportError_agrees h).bind fun p h => .pure h _

theorem ValuesAgree.members_succ (ih : ValuesAgree strtof text k) {object : List (Str × Option (Value ν))}
    (h : At text p s) :
    Agrees text (Proc.loop .endless (objectBody text (obtainValue text strtof d)) n object p)
      (Jjson.members strtof (k + 1) object s) := by
  cases n with
  | zero => exact .cut
  | succ n =>
    rw [Jjson.members]
    by_cases h_nil : s = []
    · rw [if_pos h_nil]
      refine Agrees.leave ((eof_agrees h).bind fun p h => .pos (decide_eq_true h_nil) ?_)
      exact (reportError_agrees h).bind fun p h => .pure h _
    rw [if_neg h_nil]
    by_cases h_brace : Jjson.peek s = 0x7d
    · rw [if_pos h_brace]
      refine Agrees.leave ((eof_agrees h).bind fun p h => .neg (of_decide_eq_true.mt h_nil) ?_)
      exact (peek_agrees h).bind fun p h => .pos h_brace ((skip_agrees h).bind fun p h => .pure h _)
    rw [if_neg h_brace]
    have h_string {p : State} (h : At text p s) := obtainString_agrees h
    rcases h_key : Jjson.obtainString s with ⟨key, t⟩
    rw [h_key] at h_string
    dsimp only
    by_cases h_colon : Jjson.peek (Jjson.skipWhitespace t) = 0x3a
    · rw [if_neg (not_not.mpr h_colon)]
      have h_value {p : State} (h : At text p (Jjson.skipWhitespace (Jjson.skipWhitespace t).tail)) :=
        ih.value (d := d) h
      rcases h_res : Jjson.obtainValue strtof k (Jjson.skipWhitespace (Jjson.skipWhitespace t).tail) with
        e | ⟨v, r⟩
      · rw [h_res] at h_value
        refine Agrees.bind_error (opening_agrees h h_nil h_brace fun p h => (h_string h).bind fun p h => ?_)
        refine (skipWhitespace_agrees h).bind fun p h => (get_agrees h).bind fun p h => .pos h_colon ?_
        exact (skipWhitespace_agrees h).bind fun p h => (h_value h).bind_error
      rw [h_res] at h_value
      cases key with
      | none =>
        refine Agrees.bind_error (opening_agrees h h_nil h_brace fun p h => (h_string h).bind fun p h => ?_)
        refine (skipWhitespace_agrees h).bind fun p h => (get_agrees h).bind fun p h => .pos h_colon ?_
        refine (skipWhitespace_agrees h).bind fun p h => (h_value h).bind fun p h => ?_
        exact (skipWhitespace_agrees h).bind fun p h => .inr rfl
      | some key =>
        have h_rest : (if Jjson.peek (Jjson.skipWhitespace r) = 0x7d then
              Jjson.members strtof k (emplace object key v) (Jjson.skipWhitespace r)
            else if Jjson.peek (Jjson.skipWhitespace r) = 0x2c then
              Jjson.members strtof k (emplace object key v) (Jjson.skipWhitespace (Jjson.skipWhitespace r).tail)
            else Jjson.members strtof k (emplace object key v) (Jjson.skipWhitespace r))
            = Jjson.members strtof k (emplace object key v) (behindMember (Jjson.skipWhitespace r)) := by
          rw [behindMember]
          split_ifs <;> rfl
        dsimp only
        rw [h_rest]
        refine Agrees.goOn ?_ fun p h => ih.members h
        refine opening_agrees h h_nil h_brace fun p h => (h_string h).bind fun p h => ?_
        refine (skipWhitespace_agrees h).bind fun p h => (get_agrees h).bind fun p h => .pos h_colon ?_
        refine (skipWhitespace_agrees h).bind fun p h => (h_value h).bind fun p h => ?_
        exact (skipWhitespace_agrees h).bind fun p h => memberEnd_agrees _ h
    · rw [if_pos h_colon]
      refine Agrees.leave (opening_agrees h h_nil h_brace fun p h => (h_string h).bind fun p h => ?_)
      refine (skipWhitespace_agrees h).bind fun p h => (get_agrees h).bind fun p h => .neg h_colon ?_
      exact (reportError_agrees h).bind fun p h => .pure h _

variable (strtof) (text)

/-- By induction on the bound on the calls. -/
theorem valuesAgree (k : ℕ) : ValuesAgree strtof text k := by
  induction k with
  | zero =>
    constructor
    case value =>
      intro d p s _
      rw [Jjson.obtainValue]
      trivial
    case array =>
      intro d p s _
      rw [Jjson.obtainArray]
      trivial
    case elements =>
      intro d n array p s _
      rw [Jjson.elements]
      trivial
    case object =>
      intro d p s _
      rw [Jjson.obtainObject]
      trivial
    case members =>
      intro d n object p s _
      rw [Jjson.members]
      trivial
  | succ k ih =>
    exact ⟨ih.value_succ, ih.array_succ, ih.elements_succ, ih.object_succ, ih.members_succ⟩

/-! ### Runs of `Parse` -/

/-- **The two models are one.** A run of `ParseJsonText` on the text and a position returns what the one on
the text that is left does, and leaves this text; it ends with a null key just if the other does. -/
theorem parseJsonText_agrees :
    match Jjson.parseJsonText strtof text with
    | .ok (v, s) => (parse text strtof).1 = .ok v ∧ At text (parse text strtof).2 s
    | .error e => e = .nullKey ∧ (parse text strtof).1 = .error .nullKey := by
  have h_at : At text .initial text := ⟨Nat.zero_le _, rfl⟩
  have h_ends : (parse text strtof).1 ≠ .error .endless := by
    intro h_endless
    cases (parseJsonText_does strtof text).fault _ h_endless
  have h_depth := obtainValue_ne_depth strtof text
  have h_value {p : State} (h : At text p (Jjson.skipWhitespace text)) :=
    (valuesAgree text strtof (depthOf text)).value (d := bound text) h
  rw [Jjson.parseJsonText]
  rcases h_res : Jjson.obtainValue strtof (depthOf text) (Jjson.skipWhitespace text) with e | ⟨v, r⟩
  · rw [h_res] at h_value h_depth
    have h_run : Agrees text (parse text strtof) (.error e) :=
      (skipWhitespace_agrees h_at).bind fun p h => (h_value h).bind_error
    cases e with
    | depth => exact absurd rfl h_depth
    | nullKey => exact ⟨rfl, h_run.resolve_left h_ends⟩
  · rw [h_res] at h_value
    have h_run : Agrees text (parse text strtof) (.ok (v, Jjson.skipWhitespace r)) := by
      refine (skipWhitespace_agrees h_at).bind fun p h => (h_value h).bind fun p h => ?_
      exact (skipWhitespace_agrees h).bind fun p h => .pure h v
    exact h_run.resolve_left h_ends

end GitlstreeFS.Jjson.Parser
