import Mathlib.Data.List.Basic
import Mathlib.Data.List.Induction
import Mathlib.Data.Int.Notation
import Mathlib.Data.Nat.Notation
import Mathlib.Logic.Function.Basic
import Mathlib.Tactic.Common

/-!
# Strings and paths

A `std::string` is a list of bytes, with no encoding implied. `strtol` is the function of the C
library, `baseName` and `dirName` are those of `basename.cc`.

An absolute path is `render q` for the list `q` of its components. On paths whose components are
neither empty nor contain a slash (`IsPath`), `dirName` and `baseName` take the last component off
and `render` is injective, so that such a path and its components are the same thing.
-/

namespace GitlstreeFS

/-- `std::string`. -/
abbrev Str := List UInt8

/-- The bytes of a string literal of the source, which is ASCII. -/
def str (s : String) : Str :=
  s.toList.map fun c => UInt8.ofNat c.toNat

/-- The slash. -/
def slash : UInt8 := 47

/-- What comes behind a success. -/
theorem ok_bind {ε α β : Type} (a : α) (f : α → Except ε β) : (Except.ok a >>= f) = f a :=
  rfl

/-- Nothing comes behind a failure. -/
theorem error_bind {ε α β : Type} (e : ε) (f : α → Except ε β) : (Except.error e >>= f) = .error e :=
  rfl

/-- A success that comes of two. -/
theorem bind_eq_ok_iff {ε α β : Type} {x : Except ε α} {f : α → Except ε β} {b : β} :
    (x >>= f) = .ok b ↔ ∃ a, x = .ok a ∧ f a = .ok b := by
  cases x with
  | error e => exact ⟨fun h => (by cases h), fun ⟨a, h, _⟩ => (by cases h)⟩
  | ok a =>
    constructor
    · intro h
      exact ⟨a, rfl, h⟩
    · rintro ⟨a', h, h'⟩
      rwa [Except.ok.inj h]

/-- A failure that comes of two. -/
theorem bind_eq_error_iff {ε α β : Type} {x : Except ε α} {f : α → Except ε β} {e : ε} :
    (x >>= f) = .error e ↔ x = .error e ∨ ∃ a, x = .ok a ∧ f a = .error e := by
  cases x with
  | error e' =>
    constructor
    · intro h
      exact .inl (congrArg Except.error (Except.error.inj h))
    · rintro (h | ⟨a, h, -⟩)
      · exact congrArg Except.error (Except.error.inj h)
      · cases h
  | ok a =>
    constructor
    · intro h
      exact .inr ⟨a, rfl, h⟩
    · rintro (h | ⟨a', h, h'⟩)
      · cases h
      · rwa [Except.ok.inj h]

/-! ### Loops -/

section Loops

variable {ε α β γ : Type} {f : α → Except ε β} {l : List α} {bs : List β}

/-- A loop that succeeds gives what its rounds give. -/
theorem mapM_eq_ok_iff : l.mapM f = .ok bs ↔ l.map f = bs.map .ok := by
  induction l generalizing bs with
  | nil =>
    rw [List.mapM_nil, List.map_nil, eq_comm (a := []), List.map_eq_nil_iff]
    exact ⟨fun h => (Except.ok.inj h).symm, fun h => congrArg Except.ok h.symm⟩
  | cons a l ih =>
    rw [List.mapM_cons, List.map_cons, eq_comm (a := _ :: _), List.map_eq_cons_iff, bind_eq_ok_iff]
    constructor
    · rintro ⟨b, h_b, h⟩
      obtain ⟨bs', h_bs', h⟩ := bind_eq_ok_iff.mp h
      exact ⟨b, bs', (Except.ok.inj h).symm, h_b.symm, (ih.mp h_bs').symm⟩
    · rintro ⟨b, bs', rfl, h_b, h_bs'⟩
      refine ⟨b, h_b.symm, ?_⟩
      rw [ih.mpr h_bs'.symm]
      rfl

/-- A round gives an element. -/
theorem exists_of_mapM {a : α} (h : l.mapM f = .ok bs) (ha : a ∈ l) : ∃ b ∈ bs, f a = .ok b := by
  have h_mem : f a ∈ bs.map .ok := mapM_eq_ok_iff.mp h ▸ List.mem_map_of_mem ha
  obtain ⟨b, h_b, h_eq⟩ := List.mem_map.mp h_mem
  exact ⟨b, h_b, h_eq.symm⟩

/-- An element is given by a round. -/
theorem exists_of_mem_mapM {b : β} (h : l.mapM f = .ok bs) (hb : b ∈ bs) : ∃ a ∈ l, f a = .ok b := by
  have h_mem : .ok b ∈ l.map f := mapM_eq_ok_iff.mp h ▸ List.mem_map_of_mem hb
  exact List.mem_map.mp h_mem

/-- A loop succeeds if each round does. -/
theorem exists_mapM_eq_ok_iff : (∃ bs, l.mapM f = .ok bs) ↔ ∀ a ∈ l, ∃ b, f a = .ok b := by
  constructor
  · rintro ⟨bs, h⟩ a ha
    obtain ⟨b, -, h_b⟩ := exists_of_mapM h ha
    exact ⟨b, h_b⟩
  · intro h
    induction l with
    | nil => exact ⟨[], rfl⟩
    | cons a l ih =>
      obtain ⟨b, h_b⟩ := h a List.mem_cons_self
      obtain ⟨bs, h_bs⟩ := ih fun a ha => h a (List.mem_cons_of_mem _ ha)
      exact ⟨b :: bs, by rw [List.mapM_cons, h_b, ok_bind, h_bs, ok_bind]; rfl⟩

/-- What can be told of each round can be told of the loop. -/
theorem map_of_mapM {g : β → γ} {k : α → γ} (h : l.mapM f = .ok bs)
    (h_round : ∀ a ∈ l, ∀ b, f a = .ok b → g b = k a) : bs.map g = l.map k := by
  rw [mapM_eq_ok_iff] at h
  induction l generalizing bs with
  | nil => rw [List.map_eq_nil_iff.mp h.symm, List.map_nil, List.map_nil]
  | cons a l ih =>
    obtain ⟨b, bs', rfl, h_b, h_bs'⟩ := List.map_eq_cons_iff.mp h.symm
    rw [List.map_cons, List.map_cons, h_round a List.mem_cons_self b h_b.symm,
      ih h_bs'.symm fun a' h_a' => h_round a' (List.mem_cons_of_mem _ h_a')]

end Loops

/-! ### `strtol` -/

/-- `isspace` in the C locale. -/
def isSpace (b : UInt8) : Bool :=
  b = 0x20 ∨ (0x09 ≤ b ∧ b ≤ 0x0d)

/-- The value of an alphanumeric character as a digit. -/
def digitValue (b : UInt8) : Option ℕ :=
  if 0x30 ≤ b ∧ b ≤ 0x39 then some (b.toNat - 0x30)
  else if 0x61 ≤ b ∧ b ≤ 0x7a then some (b.toNat - 0x61 + 10)
  else if 0x41 ≤ b ∧ b ≤ 0x5a then some (b.toNat - 0x41 + 10)
  else none

/-- The number at the head of a string; it ends before the first character that is no digit of
the base. -/
def digitsFrom (base : ℕ) : ℕ → Str → ℕ
  | acc, [] => acc
  | acc, b :: s =>
    match digitValue b with
    | some d => if d < base then digitsFrom base (acc * base + d) s else acc
    | none => acc

/-- In base 16 a number may begin with `0x`, if a digit follows. -/
def dropHexPrefix (base : ℕ) : Str → Str
  | 0x30 :: x :: b :: s =>
    if base = 16 ∧ (x = 0x78 ∨ x = 0x58) ∧ (∃ d ∈ digitValue b, d < 16) then b :: s
    else 0x30 :: x :: b :: s
  | s => s

/-- The number that a text stands for: spaces, a sign, digits. -/
def numberOf (s : Str) (base : ℕ) : ℤ :=
  match s.dropWhile isSpace with
  | 0x2d :: s => - (digitsFrom base 0 (dropHexPrefix base s) : ℤ)
  | 0x2b :: s => digitsFrom base 0 (dropHexPrefix base s)
  | s => digitsFrom base 0 (dropHexPrefix base s)

/-- `strtol(s, nullptr, base)`: in place of a number outside the range of `long` comes `LONG_MAX` or
`LONG_MIN`. -/
def strtol (s : Str) (base : ℕ) : ℤ :=
  max (-0x8000000000000000) (min (numberOf s base) 0x7fffffffffffffff)

theorem strtol_eq_numberOf {s : Str} {base : ℕ} (h_le : -0x8000000000000000 ≤ numberOf s base)
    (h_lt : numberOf s base < 0x8000000000000000) : strtol s base = numberOf s base := by
  unfold strtol
  omega

/-! ### `basename.cc` -/

/-- `n.rfind(c)`: where `c` occurs last. -/
def rfind (c : UInt8) : Str → Option ℕ
  | [] => none
  | x :: n =>
    match rfind c n with
    | some i => some (i + 1)
    | none => if x = c then some 0 else none

/-- `BaseName`. -/
def baseName (n : Str) : Str :=
  match rfind slash n with
  | none => n
  | some i => n.drop (i + 1)

/-- `DirName`. -/
def dirName (n : Str) : Str :=
  match rfind slash n with
  | none => []
  | some i => n.take i

theorem rfind_eq_none {c : UInt8} {n : Str} (h : c ∉ n) : rfind c n = none := by
  induction n with
  | nil => rfl
  | cons x n ih =>
    rw [List.mem_cons, not_or] at h
    rw [rfind, ih h.2]
    exact if_neg (Ne.symm h.1)

theorem rfind_append {c : UInt8} {n : Str} (h : c ∉ n) (d : Str) :
    rfind c (d ++ c :: n) = some d.length := by
  induction d with
  | nil => simp [rfind, rfind_eq_none h]
  | cons x d ih => rw [List.cons_append, rfind, ih, List.length_cons]

/-! ### Paths -/

/-- The path of the components `q`. -/
def render (q : List Str) : Str :=
  q.flatMap (slash :: ·)

/-- A file name: not empty, and without a slash. -/
def IsName (n : Str) : Prop :=
  n ≠ [] ∧ slash ∉ n

instance (n : Str) : Decidable (IsName n) :=
  inferInstanceAs (Decidable (_ ∧ _))

/-- The components of an absolute path other than the root. -/
structure IsPath (q : List Str) : Prop where
  ne_nil : q ≠ []
  isName : ∀ n ∈ q, IsName n

instance (q : List Str) : Decidable (IsPath q) :=
  decidable_of_iff (q ≠ [] ∧ ∀ n ∈ q, IsName n) ⟨fun h => ⟨h.1, h.2⟩, fun h => ⟨h.1, h.2⟩⟩

variable {q q' : List Str} {n n' : Str}

@[simp] theorem render_nil : render [] = [] := rfl

theorem render_concat (q : List Str) (n : Str) : render (q ++ [n]) = render q ++ slash :: n := by
  simp [render]

theorem dirName_render (h : slash ∉ n) : dirName (render (q ++ [n])) = render q := by
  rw [render_concat, dirName, rfind_append h]
  simp

theorem baseName_render (h : slash ∉ n) : baseName (render (q ++ [n])) = n := by
  rw [render_concat, baseName, rfind_append h]
  simp

theorem render_eq_nil (h : render q = []) : q = [] := by
  rcases q with _ | ⟨n, q⟩
  · rfl
  · simp [render] at h

theorem length_render_lt (q : List Str) (n : Str) :
    (render q).length < (render (q ++ [n])).length := by
  simp [render_concat]

theorem isPath_concat : IsPath (q ++ [n]) ↔ (∀ m ∈ q, IsName m) ∧ IsName n := by
  constructor
  · intro h
    exact ⟨fun m hm => h.isName m (by simp [hm]), h.isName n (by simp)⟩
  · intro h
    refine ⟨by simp, fun m hm => ?_⟩
    rcases List.mem_append.mp hm with hq | hn
    · exact h.1 m hq
    · rw [List.mem_singleton] at hn
      exact hn ▸ h.2

/-- A path is that of one list of components only. -/
theorem render_inj (h : ∀ n ∈ q, IsName n) (h' : ∀ n ∈ q', IsName n)
    (h_eq : render q = render q') : q = q' := by
  induction q using List.reverseRecOn generalizing q' with
  | nil => exact (render_eq_nil h_eq.symm).symm
  | append_singleton q n ih =>
    rcases List.eq_nil_or_concat' q' with rfl | ⟨q', n', rfl⟩
    · exact render_eq_nil h_eq
    · have hn : slash ∉ n := (h n (by simp)).2
      have hn' : slash ∉ n' := (h' n' (by simp)).2
      have h_dir := congrArg dirName h_eq
      have h_base := congrArg baseName h_eq
      rw [dirName_render hn, dirName_render hn'] at h_dir
      rw [baseName_render hn, baseName_render hn'] at h_base
      rw [ih (fun m hm => h m (by simp [hm])) (fun m hm => h' m (by simp [hm])) h_dir, h_base]

/-- The root is not the path of any components. -/
theorem render_ne_slash (h : IsPath q) : render q ≠ [slash] := by
  intro h_eq
  obtain ⟨q₀, n, rfl⟩ := List.eq_nil_or_concat' q |>.resolve_left h.ne_nil
  have hn := (isPath_concat.mp h).2
  have h_base := congrArg baseName h_eq
  rw [baseName_render hn.2] at h_base
  exact hn.1 (h_base.trans (by decide))

/-- The ancestors of a path are paths. -/
theorem IsPath.of_isPrefix (h : IsPath q) (hq : q' <+: q) (h_ne : q' ≠ []) : IsPath q' :=
  ⟨h_ne, fun n hn => h.isName n (hq.subset hn)⟩

end GitlstreeFS
