import GitlstreeFS.Effect.Loop
import GitlstreeFS.Jjson.Parser

/-!
# The parser with its position

The methods of `Parser` as they work on `text_` and `position_`. `Parser.lean` has the text that is
left in place of the two; here `position_` is a number that nothing keeps within the text, `substr` in
`ReportError` throws where it is not, and the loops are loops. `parseJsonText_agrees` says that both come
to the same.

* `history` records the values that `position_` has had; no method reads it.
* Each loop has its body as a definition of its own (`arrayBody` and so on), which says whether the
  loop goes on. `text_.size() + 1` bounds the number of iterations of every loop and the depth of
  nested values, and a run that reaches the bound is `endless`.
-/

namespace GitlstreeFS.Jjson.Parser

open Effect

variable {ν : Type}

/-- `position_`, and the values it had before, the latest first. -/
structure State where
  position : ℕ
  history : List ℕ
  deriving DecidableEq, Repr

/-- A new `Parser`. -/
def State.initial : State :=
  ⟨0, []⟩

/-- `position_++` -/
def State.advance (p : State) : State :=
  ⟨p.position + 1, p.position :: p.history⟩

/-- All values that `position_` has had, the latest first. -/
def State.trail (p : State) : List ℕ :=
  p.position :: p.history

/-- Why a run ends without a result. -/
inductive Halt where
  /-- A null pointer is used as the key of a member. -/
  | nullKey
  /-- `substr` throws. -/
  | outOfRange
  /-- A loop or the nesting goes on for longer than the text is. -/
  | endless
  deriving DecidableEq, Repr

/-- A method of the parser. -/
abbrev Method (α : Type) := Effect.Proc Halt State α

section Methods

variable (text : Str)

/-! ### Characters -/

/-- `Eof`. -/
def eof : Method Bool :=
  fun p => (.ok (text.length ≤ p.position), p)

/-- `Peek`. -/
def peek : Method UInt8 := do
  if ← eof text then return 0
  else fun p => (.ok (text.getD p.position 0), p)

/-- `Skip`. -/
def skip : Method Bool := do
  if ← eof text then return false
  else fun p => (.ok true, p.advance)

/-- `Get`. -/
def get : Method UInt8 := do
  if ← eof text then return 0
  else fun p => (.ok (text.getD p.position 0), p.advance)

/-- `ReportError`, of which only `text_.substr(position_)` matters. -/
def reportError : Method Unit :=
  fun p => (if text.length < p.position then .error .outOfRange else .ok (), p)

/-- The bound on iterations and nested values. -/
def bound : ℕ :=
  text.length + 1

/-- The loop of `Consume`. -/
def consumeBody (valid : List UInt8) (data : Str) : Method (Iteration Str Str) := do
  if (← peek text) ∈ valid then
    let c ← peek text
    if ← skip text then return .goOn (data ++ [c])
    else return .leave (data ++ [c])
  else return .leave data

/-- `Consume(valid)`. -/
def consume (valid : List UInt8) : Method Str :=
  Proc.loop .endless (consumeBody text valid) (bound text) []

/-- The loop of `SkipValid`. -/
def skipBody (valid : List UInt8) (_ : Unit) : Method (Iteration Unit Unit) := do
  if (← peek text) ∈ valid then
    if ← skip text then return .goOn ()
    else return .leave ()
  else return .leave ()

/-- `SkipValid(valid)`. -/
def skipValid (valid : List UInt8) : Method Unit :=
  Proc.loop .endless (skipBody text valid) (bound text) ()

/-- `SkipWhitespace`. -/
def skipWhitespace : Method Unit :=
  skipValid text validWhitespace

/-! ### Strings -/

/-- The loop of `ObtainString`. -/
def stringBody (s : Str) : Method (Iteration Str (Option Str)) := do
  if ← eof text then
    reportError text
    return .leave none
  else if (← peek text) = 0x22 then
    let _ ← skip text
    return .leave (some s)
  else if (← peek text) = 0x5c then
    let _ ← skip text
    let c ← get text
    if c = 0x75 then
      let h₁ ← get text
      let h₂ ← get text
      let h₃ ← get text
      let h₄ ← get text
      -- `charcode` has to fit in one byte, else "Unimplemented."
      if 0 ≤ charcode h₁ h₂ h₃ h₄ ∧ charcode h₁ h₂ h₃ h₄ < 256 then
        return .goOn (s ++ [UInt8.ofNat (charcode h₁ h₂ h₃ h₄).toNat])
      else
        reportError text
        return .leave none
    else return .goOn (s ++ escaped c)
  else
    let c ← get text
    return .goOn (s ++ [c])

/-- `ObtainString`. -/
def obtainString : Method (Option Str) := do
  if (← get text) = 0x22 then Proc.loop .endless (stringBody text) (bound text) []
  else return none

/-! ### Values -/

/-- `AssertConsume`. -/
def assertConsume (v : Value ν) : Str → Method (Option (Value ν))
  | [] => return some v
  | c :: expect => do
    if c = (← peek text) then
      if ← skip text then assertConsume v expect
      else return none
    else return none

/-- The loop of `ObtainArray`, where `value` is `ObtainValue`. -/
def arrayBody (value : Method (Option (Value ν))) (array : List (Value ν)) :
    Method (Iteration (List (Value ν)) (Option (Value ν))) := do
  if ← eof text then
    reportError text
    return .leave none
  else if (← peek text) = 0x5d then
    let _ ← skip text
    return .leave (some (.array array))
  else
    match ← value with
    | none =>
      reportError text
      return .leave none
    | some v =>
      skipWhitespace text
      if (← peek text) = 0x5d then return .goOn (array ++ [v])
      else if (← peek text) = 0x2c then
        let _ ← skip text
        skipWhitespace text
        return .goOn (array ++ [v])
      else
        reportError text
        return .leave none

/-- `ObtainArray`. -/
def obtainArray (value : Method (Option (Value ν))) : Method (Option (Value ν)) := do
  if (← get text) = 0x5b then
    skipWhitespace text
    Proc.loop .endless (arrayBody text value) (bound text) []
  else return none

/-- `object.emplace(…)` and what follows it in the loop of `ObtainObject`. -/
def memberEnd (object : List (Str × Option (Value ν))) :
    Method (Iteration (List (Str × Option (Value ν))) (Option (Value ν))) := do
  if (← peek text) = 0x7d then return .goOn object
  else if (← peek text) = 0x2c then
    let _ ← skip text
    skipWhitespace text
    return .goOn object
  else
    reportError text
    return .goOn object

/-- The loop of `ObtainObject`. -/
def objectBody (value : Method (Option (Value ν))) (object : List (Str × Option (Value ν))) :
    Method (Iteration (List (Str × Option (Value ν))) (Option (Value ν))) := do
  if ← eof text then
    reportError text
    return .leave none
  else if (← peek text) = 0x7d then
    let _ ← skip text
    return .leave (some (.object object))
  else
    let key ← obtainString text
    skipWhitespace text
    if (← get text) = 0x3a then
      skipWhitespace text
      let v ← value
      skipWhitespace text
      -- a key that is no string is a null pointer, and it is looked at only now
      match key with
      | none => Proc.throw .nullKey
      | some key => memberEnd text (emplace object key v)
    else
      reportError text
      return .leave none

/-- `ObtainObject`. -/
def obtainObject (value : Method (Option (Value ν))) : Method (Option (Value ν)) := do
  if (← get text) = 0x7b then
    skipWhitespace text
    Proc.loop .endless (objectBody text value) (bound text) []
  else
    reportError text
    return none

variable (strtof : Str → ν)

/-- `ObtainNumber`. -/
def obtainNumber : Method (Option (Value ν)) := do
  let number ← consume text validNumber
  return some (.number (strtof number))

/-- `ObtainValue`, with a bound on the depth of nested values. -/
def obtainValue : ℕ → Method (Option (Value ν))
  | 0 => Proc.throw .endless
  | k + 1 => do
    let c ← peek text
    if c = 0x66 then assertConsume text .false (str "false")
    else if c = 0x6e then assertConsume text .null (str "null")
    else if c = 0x74 then assertConsume text .true (str "true")
    else if c ∈ str "-0123456789+" then obtainNumber text strtof
    else if c = 0x5b then obtainArray text (obtainValue k)
    else if c = 0x7b then obtainObject text (obtainValue k)
    else if c = 0x22 then
      let s ← obtainString text
      return s.map .string
    else return none

/-- `ParseJsonText`. -/
def parseJsonText : Method (Option (Value ν)) := do
  skipWhitespace text
  let v ← obtainValue text strtof (bound text)
  skipWhitespace text
  return v

/-- `Parse`: what it returns, and where the parser is then. -/
def parse : Except Halt (Option (Value ν)) × State :=
  parseJsonText text strtof .initial

end Methods

end GitlstreeFS.Jjson.Parser
