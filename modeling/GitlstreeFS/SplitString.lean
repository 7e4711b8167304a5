import GitlstreeFS.Cpp

/-!
# `SplitStringUsing`

The function of `strutil.cc`, and what it returns: `splitStringUsing_eq_ok_iff`. It keeps its position in
an `int`, so that a separator from `2 ^ 31 - 1` on leads it astray; `Pieces` says how.
-/

namespace GitlstreeFS

/-! ### The function -/

/-- How `SplitStringUsing` fails. -/
inductive SplitFault where
  /-- `substr` throws `std::out_of_range`. -/
  | outOfRange
  /-- The loop does not end. -/
  | endless
  deriving DecidableEq, Repr

/-- The loop, with a bound on the number of rounds. A negative `prev` is converted to a position from which
nothing is found, and of these `-1` is `npos`. -/
def splitLoop (s : Str) (c : UInt8) (tokenCompress : Bool) :
    ℕ → ℤ → List Str → Except SplitFault (List Str)
  | 0, _, _ => .error .endless
  | n + 1, prev, result =>
    -- `find` is given `prev` as a `size_t`
    if prev < 0 then
      if tokenCompress ∧ prev = -1 then .ok result else .error .outOfRange
    else
      match find s c prev.toNat with
      | none =>
        if s.length < prev.toNat then .error .outOfRange
        else .ok (result ++ [substr s prev.toNat (-1)])
      | some i =>
        splitLoop s c tokenCompress n (toInt (i + 1))
          (if tokenCompress ∧ (i : ℤ) = prev then result
            else result ++ [substr s prev.toNat (i - prev)])

/-- `SplitStringUsing`. A loop that ends takes a round for each separator and one more. -/
def splitStringUsing (s : Str) (c : UInt8) (tokenCompress : Bool) : Except SplitFault (List Str) :=
  if s = [] then .ok [] else splitLoop s c tokenCompress (s.length + 1) 0 []

/-! ### Pieces -/

/-- One more piece, which may be empty. -/
def push (tokenCompress : Bool) (a : Str) (l : List Str) : List Str :=
  if tokenCompress ∧ a = [] then l else a :: l

/-- The pieces of what stands from a position on. Behind the last separator there is always one. -/
inductive Pieces (c : UInt8) (tokenCompress : Bool) : ℕ → Str → List Str → Prop
  | last {pos : ℕ} {r : Str} (h : c ∉ r) : Pieces c tokenCompress pos r [r]
  | next {pos : ℕ} {a r : Str} {l : List Str} (h : c ∉ a)
      (h_int : pos + a.length + 1 < 0x80000000)
      (hs : Pieces c tokenCompress (pos + a.length + 1) r l) :
      Pieces c tokenCompress pos (a ++ c :: r) (push tokenCompress a l)
  /-- The position behind the separator becomes `npos`, and the rest is dropped. -/
  | npos {pos : ℕ} {a r : Str} (h : c ∉ a) (h_compress : tokenCompress = true)
      (h_int : (pos + a.length + 1) % 0x100000000 = 0xffffffff) :
      Pieces c tokenCompress pos (a ++ c :: r) (push tokenCompress a [])

variable {c : UInt8} {b : Bool} {s u a r : Str} {l result out : List Str} {pos : ℕ}

theorem mem_push {x : Str} (h : x ∈ push b a l) : x = a ∨ x ∈ l := by
  rw [push] at h
  split at h
  · exact .inr h
  · exact List.mem_cons.mp h

/-- No piece holds the separator. -/
theorem Pieces.notMem (h : Pieces c b pos s l) : ∀ x ∈ l, c ∉ x := by
  induction h with
  | last h =>
    intro x hx
    rwa [List.mem_singleton.mp hx]
  | next h _ _ ih =>
    intro x hx
    obtain rfl | hx := mem_push hx
    · exact h
    · exact ih x hx
  | npos h _ _ =>
    intro x hx
    obtain rfl | hx := mem_push hx
    · exact h
    · cases hx

/-- The pieces are parts. -/
theorem Pieces.subset (h : Pieces c b pos s l) : ∀ x ∈ l, x ⊆ s := by
  induction h with
  | last h =>
    intro x hx
    rw [List.mem_singleton.mp hx]
    exact List.Subset.refl _
  | next h _ _ ih =>
    intro x hx
    obtain rfl | hx := mem_push hx
    · exact List.subset_append_left _ _
    · exact fun y hy => List.mem_append_right _ (List.mem_cons_of_mem _ (ih x hx hy))
  | npos h _ _ =>
    intro x hx
    obtain rfl | hx := mem_push hx
    · exact List.subset_append_left _ _
    · cases hx

theorem first_unique {a' r' : Str} (ha : c ∉ a) (ha' : c ∉ a') (h : a ++ c :: r = a' ++ c :: r') :
    a = a' ∧ r = r' := by
  have h_find := congrArg (find · c 0) h
  simp only [find_append ha, find_append ha'] at h_find
  obtain ⟨h_eq, h_tail⟩ := List.append_inj h (Option.some.inj h_find)
  exact ⟨h_eq, (List.cons.inj h_tail).2⟩

/-! ### One round -/

theorem push_round (result : List Str) (a : Str) :
    (if b ∧ ((u.length + a.length : ℕ) : ℤ) = (u.length : ℤ) then result else result ++ [a])
      = result ++ push b a [] := by
  have h_iff : ((u.length + a.length : ℕ) : ℤ) = (u.length : ℤ) ↔ a = [] := by
    rw [← List.length_eq_zero_iff]
    omega
  rw [push]
  by_cases h : b = true ∧ a = []
  · rw [if_pos ⟨h.1, h_iff.mpr h.2⟩, if_pos h, List.append_nil]
  · rw [if_neg (fun h' => h ⟨h'.1, h_iff.mp h'.2⟩), if_neg h]

theorem append_push (result : List Str) (a : Str) (l : List Str) :
    result ++ push b a l = result ++ push b a [] ++ l := by
  rw [push, push]
  split
  · rw [List.append_nil]
  · rw [List.append_assoc, List.singleton_append]

/-- The last round. -/
theorem splitLoop_last (h : c ∉ r) (n : ℕ) (result : List Str) :
    splitLoop (u ++ r) c b (n + 1) u.length result = .ok (result ++ [r]) := by
  have h_find : find (u ++ r) c u.length = none := by
    rw [find_behind, find_eq_none h]
    rfl
  have h_drop : substr (u ++ r) u.length (-1) = r := by
    rw [substr, if_neg (by decide), List.drop_left]
  rw [splitLoop, if_neg (by omega), Int.toNat_natCast, h_find, h_drop]
  exact if_neg (by rw [List.length_append]; omega)

/-- A round that finds a separator. -/
theorem splitLoop_next (h : c ∉ a) (n : ℕ) (result : List Str) :
    splitLoop (u ++ (a ++ c :: r)) c b (n + 1) u.length result
      = splitLoop (u ++ (a ++ c :: r)) c b n (toInt ((u.length + a.length : ℕ) + 1))
        (result ++ push b a []) := by
  have h_find : find (u ++ (a ++ c :: r)) c u.length = some (u.length + a.length) := by
    rw [find_behind, find_append h, Option.map_some, Nat.add_comm]
  have h_take : substr (u ++ (a ++ c :: r)) u.length ((u.length + a.length : ℕ) - u.length) = a := by
    rw [substr, if_pos (by omega), List.drop_left, Nat.cast_add, add_sub_cancel_left,
      Int.toNat_natCast, List.take_left]
  rw [splitLoop, if_neg (by omega), Int.toNat_natCast, h_find]
  change splitLoop _ c b n _ (if _ ∧ ((u.length + a.length : ℕ) : ℤ) = (u.length : ℤ) then result
    else result ++ [substr _ _ _]) = _
  rw [h_take, push_round]

/-! ### What it returns -/

/-- What pieces there are before a separator. -/
theorem Pieces.cases_append (h : Pieces c b pos (a ++ c :: r) l) (ha : c ∉ a) :
    (pos + a.length + 1 < 0x80000000 ∧
      ∃ l', l = push b a l' ∧ Pieces c b (pos + a.length + 1) r l') ∨
      (b = true ∧ (pos + a.length + 1) % 0x100000000 = 0xffffffff ∧ l = push b a []) := by
  generalize h_eq : a ++ c :: r = s at h
  cases h with
  | last h => exact absurd (by rw [← h_eq]; simp) h
  | next h h_int hs =>
    obtain ⟨rfl, rfl⟩ := first_unique ha h h_eq
    exact .inl ⟨h_int, _, rfl, hs⟩
  | npos h h_compress h_int =>
    obtain ⟨rfl, -⟩ := first_unique ha h h_eq
    exact .inr ⟨h_compress, h_int, rfl⟩

theorem Pieces.cases_last (h : Pieces c b pos r l) (hr : c ∉ r) : l = [r] := by
  cases h with
  | last h => rfl
  | next h h_int hs => exact absurd (by simp) hr
  | npos h h_compress h_int => exact absurd (by simp) hr

/-- From a position before a separator the first that is found is this one, or one that is farther before
it. -/
theorem find_before (ha : c ∉ a) {p : ℕ} (hp : p ≤ u.length + a.length) :
    ∃ i, find (u ++ (a ++ c :: r)) c p = some i ∧ (i + 1 ≤ u.length ∨ i = u.length + a.length) := by
  generalize hs : u ++ (a ++ c :: r) = s
  have h_at : s[u.length + a.length]? = some c := by
    rw [← hs, ← List.append_assoc, List.getElem?_append_right (by simp)]
    simp
  have h_length : u.length + a.length < s.length := (List.getElem?_eq_some_iff.mp h_at).1
  have h_take : (s.take p).length = p := by
    rw [List.length_take]
    omega
  -- the first separator behind `p`
  have h_mem : c ∈ s.drop p := by
    refine List.mem_of_getElem? (i := u.length + a.length - p) ?_
    rw [List.getElem?_drop, ← h_at]
    congr 1
    omega
  obtain ⟨x, y, h_drop, hx⟩ := List.eq_append_cons_of_mem h_mem
  have h_split : s = s.take p ++ (x ++ c :: y) := by
    rw [← h_drop, List.take_append_drop]
  have h_find : find s c p = some (p + x.length) := by
    have h_behind := find_behind (s.take p) (x ++ c :: y) c
    rwa [h_take, find_append hx, Option.map_some, ← h_split, Nat.add_comm] at h_behind
  -- and it cannot be elsewhere than the statement says
  have h_here : s[p + x.length]? = some c := by
    rw [h_split, List.getElem?_append_right (by omega), h_take]
    simp
  refine ⟨_, h_find, ?_⟩
  by_contra h_not
  obtain h_lt | h_lt : p + x.length < u.length + a.length ∨ u.length + a.length < p + x.length := by
    omega
  · -- it would stand in `a`
    refine ha (List.mem_of_getElem? (i := p + x.length - u.length) ?_)
    rw [← hs, List.getElem?_append_right (by omega), List.getElem?_append_left (by omega)] at h_here
    exact h_here
  · -- the other would stand before it
    refine hx (List.mem_of_getElem? (i := u.length + a.length - p) ?_)
    rw [h_split, List.getElem?_append_right (by omega), List.getElem?_append_left (by omega),
      h_take] at h_at
    exact h_at

/-- The `int` of a position. -/
theorem toInt_natCast (n : ℕ) : toInt ((n : ℤ) + 1)
    = if (n + 1) % 0x100000000 < 0x80000000 then (((n + 1) % 0x100000000 : ℕ) : ℤ)
      else ((n + 1) % 0x100000000 : ℕ) - 0x100000000 := by
  rw [toInt, Int.bmod_def]
  split
  · rw [if_pos (by omega)]
    omega
  · rw [if_neg (by omega)]
    omega

/-- Behind a separator from which the position is too small, the loop goes round for ever. -/
theorem splitLoop_wrapped (ha : c ∉ a) (h_u : u.length < 0x80000000)
    (h_int : 0x80000000 ≤ u.length + a.length + 1)
    (h_wrap : 0 ≤ toInt ((u.length + a.length : ℕ) + 1)) (n : ℕ) :
    ∀ (p : ℕ) (result : List Str), p < 0x80000000 →
      splitLoop (u ++ (a ++ c :: r)) c b n p result ≠ .ok out := by
  induction n with
  | zero =>
    intro p result _ h
    cases h
  | succ n ih =>
    intro p result hp
    obtain ⟨i, h_find, h_i⟩ := find_before (r := r) ha (by omega : p ≤ u.length + a.length)
    rw [splitLoop, if_neg (by omega), Int.toNat_natCast, h_find]
    change splitLoop _ c b n (toInt ((i : ℤ) + 1)) _ ≠ _
    -- the next position is one of those from which the separator is found again
    obtain ⟨p', h_p', h_lt⟩ : ∃ p' : ℕ, toInt ((i : ℤ) + 1) = p' ∧ p' < 0x80000000 := by
      obtain h_i | rfl := h_i
      · exact ⟨i + 1, by rw [toInt_of_fits ⟨by omega, by omega⟩]; rfl, by omega⟩
      · obtain ⟨p', h_p'⟩ := Int.eq_ofNat_of_zero_le h_wrap
        have h_lt : toInt ((u.length + a.length : ℕ) + 1) < 0x80000000 :=
          Int.bmod_lt (by decide)
        exact ⟨p', h_p', by omega⟩
    rw [h_p']
    exact ih p' _ h_lt

/-- The loop, from where `u` has been read. -/
theorem splitLoop_eq_ok_iff (n : ℕ) : ∀ (u r : Str) (result : List Str), u.length < 0x80000000 →
    r.length < n → (splitLoop (u ++ r) c b n u.length result = .ok out ↔
      ∃ l, out = result ++ l ∧ Pieces c b u.length r l) := by
  induction n with
  | zero => exact fun u r result _ hn => absurd hn (Nat.not_lt_zero _)
  | succ n ih =>
    intro u r result h_u hn
    -- one more separator is a round of the loop, none is its end
    by_cases h_mem : c ∈ r
    · obtain ⟨a, r, rfl, ha⟩ := List.eq_append_cons_of_mem h_mem
      rw [List.length_append, List.length_cons] at hn
      rw [splitLoop_next ha]
      by_cases h_int : u.length + a.length + 1 < 0x80000000
      · -- the position is an `int`
        have h_length : (u ++ (a ++ [c])).length = u.length + a.length + 1 := by
          rw [List.length_append, List.length_append, List.length_singleton]
          rfl
        have h_eq : u ++ (a ++ c :: r) = (u ++ (a ++ [c])) ++ r := by simp
        have h_ih := ih (u ++ (a ++ [c])) r (result ++ push b a []) (by omega) (by omega)
        rw [h_length, ← h_eq] at h_ih
        have h_toInt : toInt ((u.length + a.length : ℕ) + 1) = ((u.length + a.length + 1 : ℕ) : ℤ) :=
          toInt_of_fits ⟨by omega, by omega⟩
        rw [h_toInt, h_ih]
        constructor
        · rintro ⟨l, rfl, h_l⟩
          exact ⟨push b a l, (append_push _ _ _).symm, .next ha h_int h_l⟩
        · rintro ⟨l, rfl, h_l⟩
          obtain ⟨-, l', rfl, h_l'⟩ | ⟨-, h_mod, -⟩ := h_l.cases_append ha
          · exact ⟨l', append_push _ _ _, h_l'⟩
          · omega
      · -- the position has overflowed: all that can end the loop is that it has become `npos`
        have h_pieces : (∃ l, out = result ++ l ∧ Pieces c b u.length (a ++ c :: r) l) ↔
            b = true ∧ (u.length + a.length + 1) % 0x100000000 = 0xffffffff ∧
              out = result ++ push b a [] := by
          constructor
          · rintro ⟨l, rfl, h_l⟩
            obtain ⟨h_lt, -⟩ | ⟨h_b, h_mod, rfl⟩ := h_l.cases_append ha
            · exact absurd h_lt h_int
            · exact ⟨h_b, h_mod, rfl⟩
          · rintro ⟨h_b, h_mod, rfl⟩
            exact ⟨_, rfl, .npos ha h_b h_mod⟩
        rw [h_pieces]
        by_cases h_wrap : 0 ≤ toInt ((u.length + a.length : ℕ) + 1)
        · -- the position is small again
          obtain ⟨p, hp⟩ := Int.eq_ofNat_of_zero_le h_wrap
          have h_lt : toInt ((u.length + a.length : ℕ) + 1) < 0x80000000 :=
            Int.bmod_lt (by decide)
          -- from there the loop comes back to the same separator for ever
          have h_never : splitLoop (u ++ (a ++ c :: r)) c b n p (result ++ push b a []) ≠ .ok out :=
            splitLoop_wrapped ha h_u (by omega) h_wrap n p _ (by omega)
          rw [hp]
          refine iff_of_false h_never ?_
          rintro ⟨-, h_mod, -⟩
          rw [toInt_natCast] at h_wrap
          split at h_wrap
          · omega
          · omega
        · -- the position is negative
          obtain ⟨n, rfl⟩ : ∃ m, n = m + 1 := ⟨n - 1, by omega⟩
          -- of the negative positions one is `npos`
          have h_npos : toInt ((u.length + a.length : ℕ) + 1) = -1 ↔
              (u.length + a.length + 1) % 0x100000000 = 0xffffffff := by
            rw [toInt_natCast] at h_wrap ⊢
            split
            · omega
            · omega
          rw [splitLoop, if_pos (by omega), ← h_npos]
          by_cases h : b = true ∧ toInt ((u.length + a.length : ℕ) + 1) = -1
          · rw [if_pos h]
            exact ⟨fun h_ok => ⟨h.1, h.2, (Except.ok.inj h_ok).symm⟩, fun h_all => by rw [h_all.2.2]⟩
          · rw [if_neg h]
            exact ⟨fun h_error => (by cases h_error), fun h_all => absurd ⟨h_all.1, h_all.2.1⟩ h⟩
    · rw [splitLoop_last h_mem]
      constructor
      · intro h_ok
        exact ⟨[r], (Except.ok.inj h_ok).symm, .last h_mem⟩
      · rintro ⟨l, rfl, h_l⟩
        rw [h_l.cases_last h_mem]

/-- **What `SplitStringUsing` returns.** -/
theorem splitStringUsing_eq_ok_iff :
    splitStringUsing s c b = .ok l ↔ s = [] ∧ l = [] ∨ s ≠ [] ∧ Pieces c b 0 s l := by
  rw [splitStringUsing]
  split
  · next h =>
    exact ⟨fun h_ok => .inl ⟨h, (Except.ok.inj h_ok).symm⟩, fun h_or => by
      obtain ⟨-, rfl⟩ | ⟨h_ne, -⟩ := h_or
      · rfl
      · exact absurd h h_ne⟩
  · next h =>
    have h_loop : splitLoop ([] ++ s) c b (s.length + 1) ([] : Str).length [] = .ok l ↔
        ∃ l', l = [] ++ l' ∧ Pieces c b ([] : Str).length s l' :=
      splitLoop_eq_ok_iff (s.length + 1) [] s [] (by decide) (Nat.lt_succ_self _)
    rw [List.nil_append] at h_loop
    rw [show (0 : ℤ) = (([] : Str).length : ℤ) from rfl, h_loop]
    constructor
    · rintro ⟨l', rfl, h_l⟩
      exact .inr ⟨h, h_l⟩
    · rintro (⟨h_nil, -⟩ | ⟨-, h_l⟩)
      · exact absurd h_nil h
      · exact ⟨l, rfl, h_l⟩

end GitlstreeFS
