import GitlstreeFS.Cpp
import GitlstreeFS.Effect.Run
import GitlstreeFS.FileUtil
import GitlstreeFS.Memory

/-!
# `ninjafs.cc`

A target of `ninja` is a file. `Open` runs `ninja` for it and reads what this has built, unless it has done so
before, and `Read` serves it from memory. What `ninja` prints goes to `/ninja.log`.

* A run of `ninja` is given by what it prints, how it exits, and the files that there are behind it (`Build`).
* `ReadFromFileOrDie` is a program over these files.
* A call holds `mutex_`, and a run of `ninja` holds `global_ninja_mutex`; so a run is given by the order of the
  calls.
-/

namespace GitlstreeFS.Ninjafs

open Effect Posix

variable {Root : Type}

/-! ### `NinjaLog` -/

/-- `NinjaLog::Getattr`, where `log` is `log_`. -/
def NinjaLog.getattr (log : Str) : GitlstreeFS.Stat :=
  ⟨sIFREG ||| 0o555, 1, log.length⟩

/-- `NinjaLog::Read`. -/
def NinjaLog.read (log : Str) (size : ℕ) (offset : ℤ) : Option (ℤ × Str) :=
  readString log size offset

/-! ### `NinjaTarget` -/

/-- What a run of `ninja` does. -/
structure Build (Root : Type) where
  printed : Str
  /-- `WEXITSTATUS(status)`; there is none if a signal has ended `ninja`. -/
  exitCode : Option ℕ
  /-- The files behind it. -/
  files : FileSystem Root

/-- `buf_` of a target, and what is global. -/
structure State where
  buf : Option Str
  /-- `ninja_log->log_` -/
  log : Str
  /-- How often `ninja` has been run. -/
  runs : ℕ
  deriving DecidableEq, Repr

/-- At first nothing is loaded. -/
def State.initial (log : Str) (runs : ℕ) : State :=
  ⟨none, log, runs⟩

/-- `ReadFromFileOrDie`. -/
def readFromFileOrDie (p : Path Root) : Proc Root Bytes := do
  match ← readFromFile p with
  | none => .abort
  | some s => return s

namespace NinjaTarget

/-- `Getattr`. -/
def getattr (s : State) : GitlstreeFS.Stat :=
  match s.buf with
  | some buf => ⟨sIFREG ||| 0o555, 1, buf.length⟩
  | none => ⟨sIFREG ||| 0o555, 1, 4096 * 1024⟩

/-- `Open`, where `target` is the file and `build` what `ninja` does if it is run. -/
def openFile [DecidableEq Root] (target : Path Root) (build : Build Root) (s : State) : Outcome (ℤ × State) :=
  match s.buf with
  | some _ => .done (0, s)
  | none =>
    -- `PopenAndReadOrDie2` aborts if `ninja` has not exited
    match build.exitCode with
    | none => .aborted
    | some exit_code =>
      let s := { s with log := build.printed, runs := s.runs + 1 }
      if exit_code = 0 then
        match ((machine Root).run (readFromFileOrDie target) .ENOENT [] build.files).outcome with
        | .done buf => .done (0, { s with buf := some buf })
        | .aborted => .aborted
        | .stuck => .stuck
      else .done (-5, s)

/-- `Read`. -/
def read (s : State) (size : ℕ) (offset : ℤ) : Option (ℤ × Str) :=
  match s.buf with
  | none => some (-5, [])
  | some buf => readString buf size offset

end NinjaTarget

/-! ### Runs -/

/-- A call of a method of the target. A size is a `size_t` of 32 bits, an offset is not negative. -/
inductive Call (Root : Type) where
  | openFile (build : Build Root)
  | read (size : Fin 0x100000000) (offset : Fin 0x8000000000000000)
  | getattr

/-- What a call returns. -/
inductive Answer where
  | opened (value : ℤ)
  | read (value : ℤ) (target : Str)
  | stat (st : GitlstreeFS.Stat)
  deriving DecidableEq, Repr

/-- A call, with the state behind it. `none` is a call that does not return. -/
def Call.perform [DecidableEq Root] (target : Path Root) (s : State) : Call Root → Option (Answer × State)
  | .openFile build =>
    match NinjaTarget.openFile target build s with
    | .done (value, s') => some (.opened value, s')
    | _ => none
  | .read size offset => (NinjaTarget.read s size offset).map fun r => (.read r.1 r.2, s)
  | .getattr => some (.stat (NinjaTarget.getattr s), s)

/-- A run from a state: calls that return, with what they answer. -/
inductive Run [DecidableEq Root] (target : Path Root) (s₀ : State) : List (Call Root × Answer) → State → Prop
  | nil : Run target s₀ [] s₀
  | snoc {calls : List (Call Root × Answer)} {s s' : State} {call : Call Root} {a : Answer}
      (h : Run target s₀ calls s) (h_step : call.perform target s = some (a, s')) :
      Run target s₀ (calls ++ [(call, a)]) s'

end GitlstreeFS.Ninjafs
