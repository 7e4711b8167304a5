import GitlstreeFS.Text

/-!
# `jjson::Parse`

The parser of `jsonparser.cc`. Its state is the text that is left: `text_` from `position_` on.
A method of `Parser` takes the text that is left and yields its result together with the text
that is left then; a null pointer is `none`.

* `ObtainString` and `Consume` only move forward and are recursive in the text. The functions that
  call each other (`obtainValue`, `obtainArray` with its loop `elements`, `obtainObject` with its
  loop `members`) have a bound on their number of calls as their first argument. `parse` takes one
  that always suffices (`obtainValue_ne_depth`).
* `ObtainObject` uses the key without asking whether there is one. Where there is none this is a
  null pointer that is dereferenced, the fault `nullKey`.
* A `float` is a `ν`, and `strtof` a parameter.
-/

namespace GitlstreeFS.Jjson

/-- `Value`: the members of an object may be null pointers. An `ObjectValue` holds its members in
the order in which they came, which nothing depends on. -/
inductive Value (ν : Type) where
  | null
  | true
  | false
  | number (x : ν)
  | string (s : Str)
  | array (elements : List (Value ν))
  | object (members : List (Str × Option (Value ν)))

/-- Why the parser does not return. -/
inductive Fault where
  /-- A null pointer is used as the key of a member. -/
  | nullKey
  /-- The bound on the number of calls was too small. -/
  | depth
  deriving DecidableEq, Repr

variable {ν : Type}

/-! ### Characters -/

/-- `Peek`: zero at the end. -/
def peek (s : Str) : UInt8 :=
  s.headD 0

/-- The sets of characters. -/
def validWhitespace : List UInt8 := [0x20, 0x09, 0x0a, 0x0d]

/-- `-+0123456789.E` -/
def validNumber : List UInt8 := str "-+0123456789.E"

/-- `SkipWhitespace`. -/
def skipWhitespace (s : Str) : Str :=
  s.dropWhile (· ∈ validWhitespace)

/-- `Consume(valid)`. -/
def consume (valid : List UInt8) (s : Str) : Str × Str :=
  s.span (· ∈ valid)

/-! ### Strings -/

/-- The character an escape stands for; there is none for an unknown escape. -/
def escaped (c : UInt8) : Str :=
  if c = 0x22 ∨ c = 0x5c ∨ c = 0x2f then [c]
  else if c = 0x62 then [0x8]
  else if c = 0x66 then [0xc]
  else if c = 0x6e then [0xa]
  else if c = 0x72 then [0xd]
  else if c = 0x74 then [0x9]
  else []

/-- What `strtol` makes of the four characters behind `\u`, of which it sees those up to a NUL. -/
def charcode (h₁ h₂ h₃ h₄ : UInt8) : ℤ :=
  strtol ([h₁, h₂, h₃, h₄].takeWhile (· ≠ 0)) 16

/-- The loop of `ObtainString`; `acc` is what has been read. -/
def stringLoop (acc : Str) : Str → Option Str × Str
  | [] => (none, [])
  | 0x22 :: s => (some acc, s)
  | 0x5c :: 0x75 :: h₁ :: h₂ :: h₃ :: h₄ :: s =>
    if 0 ≤ charcode h₁ h₂ h₃ h₄ ∧ charcode h₁ h₂ h₃ h₄ < 256 then
      stringLoop (acc ++ [UInt8.ofNat (charcode h₁ h₂ h₃ h₄).toNat]) s
    else (none, s)
  -- the end comes within the four digits, and then there is no closing quote either
  | 0x5c :: 0x75 :: _ => (none, [])
  | 0x5c :: c :: s => stringLoop (acc ++ escaped c) s
  | [0x5c] => (none, [])
  | b :: s => stringLoop (acc ++ [b]) s

/-- `ObtainString`. -/
def obtainString (s : Str) : Option Str × Str :=
  if peek s = 0x22 then stringLoop [] s.tail else (none, s.tail)

/-! ### Values -/

/-- `AssertConsume`. -/
def assertConsume (v : Value ν) : Str → Str → Option (Value ν) × Str
  | [], s => (some v, s)
  | _ :: _, [] => (none, [])
  | c :: expect, b :: s => if c = b then assertConsume v expect s else (none, b :: s)

/-- `object.emplace`: a name that is there already keeps its value. -/
def emplace (object : List (Str × Option (Value ν))) (key : Str) (v : Option (Value ν)) :
    List (Str × Option (Value ν)) :=
  if key ∈ object.map Prod.fst then object else object ++ [(key, v)]

/-- What a method that cannot fail otherwise yields: a value or a null pointer, and the rest. -/
abbrev Result (ν : Type) := Except Fault (Option (Value ν) × Str)

section Parser

variable (strtof : Str → ν)

/-- `ObtainNumber`. -/
def obtainNumber (s : Str) : Option (Value ν) × Str :=
  (some (.number (strtof (consume validNumber s).1)), (consume validNumber s).2)

mutual

/-- `ObtainValue`. -/
def obtainValue : ℕ → Str → Result ν
  | 0, _ => .error .depth
  | k + 1, s =>
    if peek s = 0x66 then .ok (assertConsume .false (str "false") s)
    else if peek s = 0x6e then .ok (assertConsume .null (str "null") s)
    else if peek s = 0x74 then .ok (assertConsume .true (str "true") s)
    else if peek s ∈ str "-0123456789+" then .ok (obtainNumber strtof s)
    else if peek s = 0x5b then obtainArray k s
    else if peek s = 0x7b then obtainObject k s
    else if peek s = 0x22 then .ok ((obtainString s).1.map .string, (obtainString s).2)
    else .ok (none, s)

/-- `ObtainArray`, called at a bracket. -/
def obtainArray : ℕ → Str → Result ν
  | 0, _ => .error .depth
  | k + 1, s =>
    if peek s ≠ 0x5b then .ok (none, s.tail) else elements k [] (skipWhitespace s.tail)

/-- The loop of `ObtainArray`. -/
def elements : ℕ → List (Value ν) → Str → Result ν
  | 0, _, _ => .error .depth
  | k + 1, array, s =>
    if s = [] then .ok (none, s)
    else if peek s = 0x5d then .ok (some (.array array), s.tail)
    else
      match obtainValue k s with
      | .error e => .error e
      | .ok (none, r) => .ok (none, r)
      | .ok (some v, r) =>
        -- the bracket is left for the next round, where it may also stand behind a comma
        if peek (skipWhitespace r) = 0x5d then elements k (array ++ [v]) (skipWhitespace r)
        else if peek (skipWhitespace r) = 0x2c then
          elements k (array ++ [v]) (skipWhitespace (skipWhitespace r).tail)
        else .ok (none, skipWhitespace r)

/-- `ObtainObject`, called at a brace. -/
def obtainObject : ℕ → Str → Result ν
  | 0, _ => .error .depth
  | k + 1, s =>
    if peek s ≠ 0x7b then .ok (none, s.tail) else members k [] (skipWhitespace s.tail)

/-- The loop of `ObtainObject`. -/
def members : ℕ → List (Str × Option (Value ν)) → Str → Result ν
  | 0, _, _ => .error .depth
  | k + 1, object, s =>
    if s = [] then .ok (none, s)
    else if peek s = 0x7d then .ok (some (.object object), s.tail)
    else
      let r := skipWhitespace (obtainString s).2
      if peek r ≠ 0x3a then .ok (none, r.tail)
      else
        match obtainValue k (skipWhitespace r.tail) with
        | .error e => .error e
        | .ok (v, r') =>
          match (obtainString s).1 with
          | none => .error .nullKey
          | some key =>
            if peek (skipWhitespace r') = 0x7d then
              members k (emplace object key v) (skipWhitespace r')
            else if peek (skipWhitespace r') = 0x2c then
              members k (emplace object key v) (skipWhitespace (skipWhitespace r').tail)
            else
              -- the error is reported, and the loop goes on
              members k (emplace object key v) (skipWhitespace r')

end

/-- A number of calls that suffices for a text. -/
def depthOf (s : Str) : ℕ :=
  3 * s.length + 1

/-- `ParseJsonText`: the value, and the text that is left after the whitespace behind it, which
nobody looks at. -/
def parseJsonText (s : Str) : Result ν :=
  match obtainValue strtof (depthOf s) (skipWhitespace s) with
  | .error e => .error e
  | .ok (v, r) => .ok (v, skipWhitespace r)

/-- `Parse`. -/
def parse (s : Str) : Except Fault (Option (Value ν)) :=
  match parseJsonText strtof s with
  | .error e => .error e
  | .ok (v, _) => .ok v

end Parser

end GitlstreeFS.Jjson
