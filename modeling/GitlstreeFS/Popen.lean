import GitlstreeFS.Effect.Descent
import GitlstreeFS.Text

/-!
# `PopenAndReadOrDie2`

It runs a command in a child and returns what the command prints. The threads of a file system call it at
the same time, and `fork` gives a child copies of all descriptors of the process: so a child also holds the
write ends of the pipes of other calls, until `execvp` closes them (`O_CLOEXEC`). A read is at the end of
the file only when nobody holds the write end any more.

A `Call` is where one call is: its thread, its child, and its pipe. A `Step` of the system is one of some
call. What a command does is a parameter: it may fail before it runs, write in pieces of any size, close its
output or leave it to processes of its own before it ends, and end by a signal.

Whatever the order of the steps, a call that returns has read everything that its own command wrote
(`Reachable.sound`), and all runs are finite and end with all calls returned, unless the process ends
(`comesToRest`).
-/

namespace GitlstreeFS.Popen

open Relation (ReflTransGen)
open Effect.Descent

/-- `bufsize`. -/
def bufsize : ℕ := 4096

/-! ### Commands -/

/-- How a child ends. -/
inductive Status where
  | exited (code : ℕ)
  | signaled
  deriving DecidableEq, Repr

/-- What becomes of a command in the child. -/
inductive Command where
  /-- `chdir`, `dup2` or `execvp` fails. What `perror` prints to the pipe comes before `abort`. -/
  | fails (message : Str)
  /-- It is executed, writes so much to the descriptors 1 and 2, and ends. -/
  | runs (output : Str) (status : Status)
  deriving DecidableEq, Repr

def Command.output : Command → Str
  | .fails message => message
  | .runs output _ => output

def Command.status : Command → Status
  | .fails _ => .signaled
  | .runs _ status => status

/-! ### One call -/

/-- Where the thread of a call is. -/
inductive Caller where
  | before
  /-- behind `ScopedPipe`, with both ends -/
  | piped
  /-- behind `fork` -/
  | forked
  /-- in the loop, without the write end -/
  | reading (retval : Str)
  /-- before `waitpid`, without the read end -/
  | waiting (retval : Str)
  | returned (retval : Str) (exitCode : ℕ)
  deriving DecidableEq, Repr

def Caller.holdsWriteEnd : Caller → Bool
  | .piped | .forked => true
  | _ => false

def Caller.holdsReadEnd : Caller → Bool
  | .piped | .forked | .reading _ => true
  | _ => false

/-- The child of a call. -/
inductive Child (ι : Type) where
  | unborn
  /-- Between `fork` and `execvp`, with the write ends that it got. -/
  | starting (inherited : ι → Bool) (unwritten : Str)
  /-- Behind it: what is left to write, while someone has the write end, and whether the child has ended. -/
  | running (unwritten : Option Str) (ended : Bool)

variable {ι : Type}

/-- The child of the call `i` holds the write end of the call `j`, or its command does. -/
def Child.Holds (i j : ι) : Child ι → Prop
  | .starting inherited _ => inherited j
  | .running (some _) _ => i = j
  | _ => False

/-- What is still going to be written. -/
def Child.unwritten : Child ι → Str
  | .starting _ u => u
  | .running u _ => u.getD []
  | .unborn => []

structure Call (ι : Type) where
  caller : Caller
  child : Child ι
  /-- What is in the pipe. -/
  pipe : Str

/-- No call has been made. -/
def Call.initial : Call ι :=
  ⟨.before, .unborn, []⟩

/-- A step of the call `i`, while the callers of `held` hold their write ends; `unheld` says that nobody holds
that of `i`. A pipe has room for `capacity` bytes. -/
inductive Call.Step (capacity : ℕ) (command : Command) (held : ι → Bool) (unheld : Prop) :
    Call ι → Call ι → Prop
  | pipe {k : Child ι} {p : Str} : Step capacity command held unheld ⟨.before, k, p⟩ ⟨.piped, k, p⟩
  | fork {k : Child ι} {p : Str} :
      Step capacity command held unheld ⟨.piped, k, p⟩ ⟨.forked, .starting held command.output, p⟩
  /-- `pipefd.second.clear()` -/
  | clear {k : Child ι} {p : Str} : Step capacity command held unheld ⟨.forked, k, p⟩ ⟨.reading [], k, p⟩
  | read {k : Child ι} {r piece p : Str} (h_ne : piece ≠ []) (h_size : piece.length ≤ bufsize) :
      Step capacity command held unheld ⟨.reading r, k, piece ++ p⟩ ⟨.reading (r ++ piece), k, p⟩
  /-- A read of nothing, and `pipefd.first.clear()` -/
  | eof {k : Child ι} {r : Str} (h : unheld) :
      Step capacity command held unheld ⟨.reading r, k, []⟩ ⟨.waiting r, k, []⟩
  | wait {u : Option Str} {r p : Str} {code : ℕ} (h : command.status = .exited code) :
      Step capacity command held unheld ⟨.waiting r, .running u true, p⟩ ⟨.returned r code, .running u true, p⟩
  | exec {c : Caller} {inherited : ι → Bool} {u p output : Str} {status : Status}
      (h : command = .runs output status) :
      Step capacity command held unheld ⟨c, .starting inherited u, p⟩ ⟨c, .running (some u) false, p⟩
  /-- `perror` in the child -/
  | complain {c : Caller} {inherited : ι → Bool} {piece u p message : Str} (h : command = .fails message)
      (h_ne : piece ≠ []) (h_room : (p ++ piece).length ≤ capacity) :
      Step capacity command held unheld ⟨c, .starting inherited (piece ++ u), p⟩
        ⟨c, .starting inherited u, p ++ piece⟩
  /-- `abort` in the child -/
  | abort {c : Caller} {inherited : ι → Bool} {p message : Str} (h : command = .fails message) :
      Step capacity command held unheld ⟨c, .starting inherited [], p⟩ ⟨c, .running none true, p⟩
  | write {c : Caller} {ended : Bool} {piece u p : Str} (h_ne : piece ≠ [])
      (h_room : (p ++ piece).length ≤ capacity) :
      Step capacity command held unheld ⟨c, .running (some (piece ++ u)) ended, p⟩
        ⟨c, .running (some u) ended, p ++ piece⟩
  /-- Nobody writes any more. -/
  | close {c : Caller} {ended : Bool} {p : Str} :
      Step capacity command held unheld ⟨c, .running (some []) ended, p⟩ ⟨c, .running none ended, p⟩
  /-- The child ends. What it has started may go on. -/
  | exit {c : Caller} {u : Option Str} {p : Str} :
      Step capacity command held unheld ⟨c, .running u false, p⟩ ⟨c, .running u true, p⟩

/-! ### All calls -/

/-- Why the process has ended. -/
inductive End (ι : Type) where
  /-- The assertion in `ScopedPipe`. -/
  | pipe
  /-- `exit(1)`, as `fork` failed. -/
  | fork
  /-- `abort`, as the command of the call was ended by a signal. -/
  | signaled (i : ι)

structure State (ι : Type) where
  call : ι → Call ι
  ended : Option (End ι)

def State.initial : State ι :=
  ⟨fun _ => .initial, none⟩

/-- Nobody holds the write end of the call `i`. -/
def State.Unheld (s : State ι) (i : ι) : Prop :=
  (s.call i).caller.holdsWriteEnd = false ∧ ∀ j, ¬ (s.call j).child.Holds j i

/-- A step of some call, while the process lives. -/
inductive Step [DecidableEq ι] (capacity : ℕ) (command : ι → Command) : State ι → State ι → Prop
  | call {calls : ι → Call ι} {i : ι} {c : Call ι}
      (h : (calls i).Step capacity (command i) (fun j => (calls j).caller.holdsWriteEnd)
        (State.Unheld ⟨calls, none⟩ i) c) :
      Step capacity command ⟨calls, none⟩ ⟨Function.update calls i c, none⟩
  | pipeFails {calls : ι → Call ι} {i : ι} (h : (calls i).caller = .before) :
      Step capacity command ⟨calls, none⟩ ⟨calls, some .pipe⟩
  | forkFails {calls : ι → Call ι} {i : ι} (h : (calls i).caller = .piped) :
      Step capacity command ⟨calls, none⟩ ⟨calls, some .fork⟩
  /-- `waitpid` says that the child did not exit. -/
  | waitSignaled {calls : ι → Call ι} {i : ι} {r : Str} {u : Option Str} {p : Str}
      (h : calls i = ⟨.waiting r, .running u true, p⟩) (h_status : (command i).status = .signaled) :
      Step capacity command ⟨calls, none⟩ ⟨calls, some (.signaled i)⟩

/-- The states of the runs. -/
def Reachable [DecidableEq ι] (capacity : ℕ) (command : ι → Command) (s : State ι) : Prop :=
  ReflTransGen (Step capacity command) State.initial s

/-! ### Nothing is lost -/

/-- There is a child, and before `execvp` it has the write end of its own call. -/
def Child.Started (i : ι) : Child ι → Prop
  | .unborn => False
  | .starting inherited _ => inherited i
  | .running _ _ => True

/-- What is known of a call from where it is. What has been read, what is in the pipe and what is unwritten
make up the output of the command. -/
def Call.Sound (command : Command) (i : ι) (c : Call ι) : Prop :=
  match c.caller with
  | .before | .piped => c.child = .unborn ∧ c.pipe = []
  | .forked => c.child.Started i ∧ c.pipe ++ c.child.unwritten = command.output
  | .reading r => c.child.Started i ∧ r ++ (c.pipe ++ c.child.unwritten) = command.output
  | .waiting r => (∃ ended, c.child = .running none ended) ∧ c.pipe = [] ∧ r = command.output
  | .returned r code =>
    c.child = .running none true ∧ c.pipe = [] ∧ r = command.output ∧ command.status = .exited code

variable {capacity : ℕ} {command : Command} {held : ι → Bool} {unheld : Prop} {c c' : Call ι} {i : ι}
  {caller : Caller} {k k' : Child ι} {p p' : Str}

/-- The child goes on, and what it takes from the unwritten it puts into the pipe. -/
theorem Call.Sound.child (h : Call.Sound command i ⟨caller, k, p⟩) (h_some : k ≠ .unborn)
    (h_open : ∀ ended, k ≠ .running none ended) (h_started : k.Started i → k'.Started i)
    (h_text : p' ++ k'.unwritten = p ++ k.unwritten) : Call.Sound command i ⟨caller, k', p'⟩ := by
  cases caller with
  | before => exact absurd h.1 h_some
  | piped => exact absurd h.1 h_some
  | forked => exact ⟨h_started h.1, h_text.trans h.2⟩
  | reading r => exact ⟨h_started h.1, (congrArg (r ++ ·) h_text).trans h.2⟩
  | waiting r =>
    obtain ⟨⟨ended, h_eq⟩, -⟩ := h
    exact absurd h_eq (h_open ended)
  | returned r code => exact absurd h.1 (h_open true)

/-- A child that nobody's write end is left of has written everything. -/
theorem exists_closed (h : k.Started i) (h_not : ¬ k.Holds i i) : ∃ ended, k = .running none ended := by
  cases k with
  | unborn => exact h.elim
  | starting inherited u => exact absurd h h_not
  | running u ended =>
    cases u with
    | none => exact ⟨ended, rfl⟩
    | some u => exact absurd rfl h_not

/-- **One step**: what a call has read, what is in its pipe and what is unwritten stay the same text. The read
ends only when the child holds the write end no more. -/
theorem Call.Sound.step (h : c.Sound command i) (h_step : c.Step capacity command held unheld c')
    (h_held : c.caller.holdsWriteEnd → held i) (h_unheld : unheld → ¬ c.child.Holds i i) :
    c'.Sound command i := by
  cases h_step with
  | pipe => exact h
  | fork =>
    obtain ⟨-, rfl : _ = []⟩ := h
    exact ⟨h_held rfl, List.nil_append _⟩
  | clear => exact h
  | @read k r piece p h_ne h_size =>
    obtain ⟨h_started, h_text⟩ := h
    refine ⟨h_started, Eq.trans ?_ h_text⟩
    -- the piece goes from the pipe to what has been read
    change (r ++ piece) ++ (p ++ k.unwritten) = r ++ ((piece ++ p) ++ k.unwritten)
    simp only [List.append_assoc]
  | eof h_eof =>
    obtain ⟨h_started, h_text⟩ := h
    obtain ⟨ended, rfl : _ = Child.running none ended⟩ := exists_closed h_started (h_unheld h_eof)
    exact ⟨⟨ended, rfl⟩, rfl, (List.append_nil _).symm.trans h_text⟩
  | wait h_status =>
    obtain ⟨⟨ended, h_eq⟩, h_pipe, h_text⟩ := h
    obtain ⟨rfl, -⟩ := Child.running.inj h_eq
    exact ⟨rfl, h_pipe, h_text, h_status⟩
  | exec h_command => exact h.child (by simp) (by simp) (fun _ => trivial) rfl
  | complain h_command h_ne h_room => exact h.child (by simp) (by simp) id (List.append_assoc _ _ _)
  | abort h_command => exact h.child (by simp) (by simp) (fun _ => trivial) rfl
  | write h_ne h_room => exact h.child (by simp) (by simp) id (List.append_assoc _ _ _)
  | close => exact h.child (by simp) (by simp) id rfl
  | @exit caller u p =>
    cases u with
    | some u => exact h.child (by simp) (by simp) id rfl
    | none =>
      -- it may be waited for already
      cases caller with
      | before => exact absurd h.1 (by simp)
      | piped => exact absurd h.1 (by simp)
      | forked => exact h
      | reading r => exact h
      | waiting r => exact ⟨⟨true, rfl⟩, h.2⟩
      | returned r code => exact absurd h.1 (by simp)

/-- What is known of all calls. -/
structure State.Sound (command : ι → Command) (s : State ι) : Prop where
  calls : ∀ i, (s.call i).Sound (command i) i
  ended : ∀ i, s.ended = some (.signaled i) → (command i).status = .signaled

variable {commands : ι → Command} {s s' : State ι}

theorem sound_initial : (State.initial : State ι).Sound commands where
  calls _ := ⟨rfl, rfl⟩
  ended _ h := by cases h

/-- A step of one call changes nothing that is known of the others. -/
theorem State.Sound.step [DecidableEq ι] (h : s.Sound commands) (h_step : Step capacity commands s s') :
    s'.Sound commands := by
  cases h_step with
  | @call calls i c h_step =>
    refine ⟨fun j => ?_, fun j h_end => by cases h_end⟩
    by_cases h_eq : j = i
    · subst h_eq
      dsimp only
      rw [Function.update_self]
      exact (h.calls j).step h_step id fun h_unheld => h_unheld.2 j
    · dsimp only
      rw [Function.update_of_ne h_eq]
      exact h.calls j
  | pipeFails _ => exact ⟨h.calls, fun j h_end => by cases h_end⟩
  | forkFails _ => exact ⟨h.calls, fun j h_end => by cases h_end⟩
  | waitSignaled _ h_status =>
    refine ⟨h.calls, fun j h_end => ?_⟩
    obtain rfl := End.signaled.inj (Option.some.inj h_end)
    exact h_status

/-- **All states are sound.** -/
theorem Reachable.sound [DecidableEq ι] (h : Reachable capacity commands s) : s.Sound commands :=
  preserved (fun _ _ h_sound h_step => h_sound.step h_step) sound_initial h

/-- **A call returns what its command printed**, all of it, with the code it exited with, and nothing that
another command printed. While something is left to write, the read end is open. -/
theorem returned_eq_output [DecidableEq ι] (h : Reachable capacity commands s) (i : ι) :
    (∀ retval code, (s.call i).caller = .returned retval code →
      retval = (commands i).output ∧ (commands i).status = .exited code ∧ (s.call i).pipe = []) ∧
    ((s.call i).child.unwritten ≠ [] → (s.call i).caller.holdsReadEnd) := by
  have h_call := h.sound.calls i
  rw [Call.Sound] at h_call
  constructor
  · intro retval code h_eq
    rw [h_eq] at h_call
    obtain ⟨-, h_pipe, h_text, h_status⟩ := h_call
    exact ⟨h_text, h_status, h_pipe⟩
  · intro h_left
    cases h_caller : (s.call i).caller with
    | before =>
      rw [h_caller] at h_call
      exact absurd (congrArg Child.unwritten h_call.1) h_left
    | piped => rfl
    | forked => rfl
    | reading r => rfl
    | waiting r =>
      rw [h_caller] at h_call
      obtain ⟨⟨ended, h_eq⟩, -⟩ := h_call
      exact absurd (congrArg Child.unwritten h_eq) h_left
    | returned r code =>
      rw [h_caller] at h_call
      exact absurd (congrArg Child.unwritten h_call.1) h_left

/-! ### Nothing waits for ever -/

/-- A child goes on where its pipe is empty, or nothing is left to write. -/
theorem child_goes_on (h_some : k ≠ .unborn) (h_busy : k ≠ .running none true)
    (h_room : p = [] ∨ k.unwritten = [])
    (h_capacity : 0 < capacity) : ∃ c', Call.Step capacity command held unheld ⟨caller, k, p⟩ c' := by
  have h_fits (b : UInt8) : (([] : Str) ++ [b]).length ≤ capacity := h_capacity
  cases k with
  | unborn => exact absurd rfl h_some
  | starting inherited u =>
    cases command with
    | runs output status => exact ⟨_, .exec rfl⟩
    | fails message =>
      cases u with
      | nil => exact ⟨_, .abort rfl⟩
      | cons b u =>
        obtain rfl : p = [] := h_room.resolve_right (List.cons_ne_nil b u)
        show ∃ c', Call.Step _ _ _ _ ⟨caller, .starting inherited ([b] ++ u), []⟩ c'
        exact ⟨_, .complain rfl (List.cons_ne_nil b []) (h_fits b)⟩
  | running u ended =>
    cases u with
    | none =>
      cases ended with
      | false => exact ⟨_, .exit⟩
      | true => exact absurd rfl h_busy
    | some u =>
      cases u with
      | nil => exact ⟨_, .close⟩
      | cons b u =>
        obtain rfl : p = [] := h_room.resolve_right (List.cons_ne_nil b u)
        show ∃ c', Call.Step _ _ _ _ ⟨caller, .running (some ([b] ++ u)) ended, []⟩ c'
        exact ⟨_, .write (List.cons_ne_nil b []) (h_fits b)⟩

theorem one_le_bufsize (b : UInt8) : [b].length ≤ bufsize := by
  change 1 ≤ 4096
  omega

/-- A call whose child has not ended goes on, on one side or on the other: where the child waits for room,
there is something to read. -/
theorem Call.Sound.goes_on (h : c.Sound command i) (h_some : c.child ≠ .unborn)
    (h_busy : c.child ≠ .running none true)
    (h_capacity : 0 < capacity) : ∃ c', c.Step capacity command held unheld c' := by
  obtain ⟨caller, k, p⟩ := c
  cases p with
  | nil => exact child_goes_on h_some h_busy (.inl rfl) h_capacity
  | cons b p =>
    cases caller with
    | before => exact absurd h.1 h_some
    | piped => exact absurd h.1 h_some
    | forked => exact ⟨_, .clear⟩
    | reading r =>
      show ∃ c', Call.Step _ _ _ _ ⟨.reading r, k, [b] ++ p⟩ c'
      exact ⟨_, .read (List.cons_ne_nil b []) (one_le_bufsize b)⟩
    | waiting r =>
      obtain ⟨-, h_pipe, -⟩ := h
      exact absurd h_pipe (List.cons_ne_nil b p)
    | returned r code =>
      obtain ⟨-, h_pipe, -⟩ := h
      exact absurd h_pipe (List.cons_ne_nil b p)

/-- A child that holds a write end has not ended. -/
theorem busy_of_holds {j : ι} (h : k.Holds i j) : k ≠ .unborn ∧ k ≠ .running none true := by
  constructor
  · rintro rfl
    exact h
  · rintro rfl
    exact h

/-- **No call is stuck.** If it waits for the end of the file, someone else goes on who holds the write end. -/
theorem State.Sound.exists_step [DecidableEq ι] (h : s.Sound commands) (h_live : s.ended = none)
    (h_capacity : 0 < capacity)
    (h_open : ∀ r code, (s.call i).caller ≠ .returned r code) : ∃ s', Step capacity commands s s' := by
  obtain ⟨calls, _⟩ := s
  obtain rfl : _ = none := h_live
  have h_child (j : ι) (h_some : (calls j).child ≠ .unborn) (h_busy : (calls j).child ≠ .running none true) :
      ∃ s', Step capacity commands ⟨calls, none⟩ s' := by
    obtain ⟨c', h_step⟩ := (h.calls j).goes_on h_some h_busy h_capacity
    exact ⟨_, .call h_step⟩
  have h_sound := h.calls i
  dsimp only at h_sound h_open
  obtain ⟨c, h_eq⟩ : ∃ c, calls i = c := ⟨_, rfl⟩
  rw [h_eq] at h_sound h_open
  obtain ⟨caller, k, p⟩ := c
  have h_call {c' : Call ι} (h_step : Call.Step capacity (commands i) (fun j => (calls j).caller.holdsWriteEnd)
      (State.Unheld ⟨calls, none⟩ i) ⟨caller, k, p⟩ c') : ∃ s', Step capacity commands ⟨calls, none⟩ s' :=
    ⟨_, .call (h_eq ▸ h_step)⟩
  cases caller with
  | before => exact h_call .pipe
  | piped => exact h_call .fork
  | forked => exact h_call .clear
  | reading r =>
    cases p with
    | cons b p =>
      have h_read : Call.Step capacity (commands i) (fun j => (calls j).caller.holdsWriteEnd)
          (State.Unheld ⟨calls, none⟩ i) ⟨.reading r, k, b :: p⟩ ⟨.reading (r ++ [b]), k, p⟩ :=
        .read (List.cons_ne_nil b []) (one_le_bufsize b)
      exact h_call h_read
    | nil =>
      by_cases h_unheld : State.Unheld ⟨calls, none⟩ i
      · exact h_call (.eof h_unheld)
      · -- the thread has closed its own, so some child has one
        have h_clear : (calls i).caller.holdsWriteEnd = false := by rw [h_eq]; rfl
        obtain ⟨j, h_holds⟩ : ∃ j, (calls j).child.Holds j i := by
          by_contra h_none
          exact h_unheld ⟨h_clear, fun j h_j => h_none ⟨j, h_j⟩⟩
        exact h_child j (busy_of_holds h_holds).1 (busy_of_holds h_holds).2
  | waiting r =>
    obtain ⟨⟨ended, rfl : k = .running none ended⟩, -⟩ := h_sound
    cases ended with
    | false => exact h_call .exit
    | true =>
      cases h_status : (commands i).status with
      | exited code => exact h_call (.wait h_status)
      | signaled => exact ⟨_, .waitSignaled h_eq h_status⟩
  | returned r code => exact absurd rfl (h_open r code)

/-! ### All calls return -/

def Caller.rank : Caller → ℕ
  | .before => 5
  | .piped => 4
  | .forked => 3
  | .reading _ => 2
  | .waiting _ => 1
  | .returned _ _ => 0

def Child.rank (command : Command) : Child ι → ℕ
  | .unborn => 2 * command.output.length + 4
  | .starting _ u => 2 * u.length + 3
  | .running (some u) ended => 2 * u.length + 1 + if ended then 0 else 1
  | .running Option.none ended => if ended then 0 else 1

/-- How far a call may still go. A byte counts twice before it is written. -/
def Call.rank (command : Command) (c : Call ι) : ℕ :=
  c.caller.rank + c.child.rank command + c.pipe.length

theorem Call.Sound.rank_lt (h : c.Sound command i) (h_step : c.Step capacity command held unheld c') :
    c'.rank command < c.rank command := by
  have h_pos {piece : Str} (h_ne : piece ≠ []) : 0 < piece.length := List.length_pos_iff.mpr h_ne
  cases h_step with
  | fork =>
    obtain ⟨rfl : _ = Child.unborn, -⟩ := h
    simp only [Call.rank, Caller.rank, Child.rank]
    omega
  | read h_ne _ =>
    have h_piece := h_pos h_ne
    simp only [Call.rank, Caller.rank, List.length_append]
    omega
  | complain _ h_ne _ =>
    have h_piece := h_pos h_ne
    simp only [Call.rank, Child.rank, List.length_append]
    omega
  | write h_ne _ =>
    have h_piece := h_pos h_ne
    simp only [Call.rank, Child.rank, List.length_append]
    omega
  | pipe => simp [Call.rank, Caller.rank]
  | clear => simp [Call.rank, Caller.rank]
  | eof _ => simp [Call.rank, Caller.rank]
  | wait _ => simp [Call.rank, Caller.rank]
  | exec _ => simp [Call.rank, Child.rank]
  | abort _ => simp [Call.rank, Child.rank]
  | close => simp [Call.rank, Child.rank]
  | @exit _ u _ => cases u <;> simp [Call.rank, Child.rank]

/-- How far all calls may still go, and the process may end. -/
def State.rank [Fintype ι] (commands : ι → Command) (s : State ι) : ℕ :=
  ∑ i, (s.call i).rank (commands i) + if s.ended = none then 1 else 0

theorem State.Sound.rank_lt [Fintype ι] [DecidableEq ι] (h : s.Sound commands)
    (h_step : Step capacity commands s s') :
    s'.rank commands < s.rank commands := by
  cases h_step with
  | @call calls i c h_step =>
    have h_lt : c.rank (commands i) < (calls i).rank (commands i) := (h.calls i).rank_lt h_step
    exact Nat.add_lt_add_right (sum_rank_lt (f := fun j (c : Call ι) => c.rank (commands j)) h_lt) 1
  | pipeFails _ => exact Nat.lt_succ_self _
  | forkFails _ => exact Nat.lt_succ_self _
  | waitSignaled _ _ => exact Nat.lt_succ_self _

/-- All calls have returned, each with the output of its command; or the process has ended, because a system
call failed or a command was ended by a signal. -/
def State.Over (commands : ι → Command) (s : State ι) : Prop :=
  (∀ i, ∃ code, (commands i).status = .exited code ∧
    (s.call i).caller = .returned (commands i).output code) ∨
  s.ended = some .pipe ∨ s.ended = some .fork ∨
    ∃ i, s.ended = some (.signaled i) ∧ (commands i).status = .signaled

/-- Where nothing goes on, all is over. -/
theorem State.Sound.over [DecidableEq ι] (h : s.Sound commands) (h_capacity : 0 < capacity)
    (h_rest : AtRest (Step capacity commands) s) : s.Over commands := by
  cases h_end : s.ended with
  | some e =>
    cases e with
    | pipe => exact .inr (.inl h_end)
    | fork => exact .inr (.inr (.inl h_end))
    | signaled i => exact .inr (.inr (.inr ⟨i, h_end, h.ended i h_end⟩))
  | none =>
    refine .inl fun i => ?_
    obtain ⟨r, code, h_eq⟩ : ∃ r code, (s.call i).caller = .returned r code := by
      by_contra h_none
      obtain ⟨s', h_step⟩ := h.exists_step h_end h_capacity (i := i)
        fun r code h_eq => h_none ⟨r, code, h_eq⟩
      exact h_rest s' h_step
    have h_call := h.calls i
    rw [Call.Sound, h_eq] at h_call
    obtain ⟨-, -, rfl, h_status⟩ := h_call
    exact ⟨code, h_status, h_eq⟩

/-- **All calls return**: whatever the order of the steps, and however much the commands print, every run is
finite, and ends with all calls returned or with the end of the process. -/
theorem comesToRest [Fintype ι] [DecidableEq ι] (commands : ι → Command) (h_capacity : 0 < capacity) :
    ComesToRest (Step capacity commands) State.initial (State.Over commands) :=
  .of_rank (fun _ _ h h_step => h.step h_step) (fun _ _ h h_step => h.rank_lt h_step)
    (fun _ h h_rest => h.over h_capacity h_rest) sound_initial

/-- Two threads list a tree and read an object, through pipes of 64 KiB. -/
def listAndRead : Bool → Command
  | false => .runs (str "README\n") (.exited 0)
  | true => .fails (str "execvp")

theorem comesToRest_listAndRead :
    ComesToRest (Step 65536 listAndRead) State.initial (State.Over listAndRead) :=
  comesToRest listAndRead (by decide)

/-! ### A run -/

/-- Two calls. -/
def pair (x y : Call Bool) : State Bool :=
  ⟨fun i => cond i y x, none⟩

section Pair

variable {commands : Bool → Command} {x x' y y' : Call Bool}

theorem step_first (h : x.Step capacity (commands false) (fun j => ((pair x y).call j).caller.holdsWriteEnd)
    ((pair x y).Unheld false) x') : Step capacity commands (pair x y) (pair x' y) := by
  have h_update : Function.update (pair x y).call false x' = (pair x' y).call := by
    funext i
    cases i <;> rfl
  have h_step : Step capacity commands (pair x y) ⟨Function.update (pair x y).call false x', none⟩ := .call h
  rwa [h_update] at h_step

theorem step_second (h : y.Step capacity (commands true) (fun j => ((pair x y).call j).caller.holdsWriteEnd)
    ((pair x y).Unheld true) y') : Step capacity commands (pair x y) (pair x y') := by
  have h_update : Function.update (pair x y).call true y' = (pair x y').call := by
    funext i
    cases i <;> rfl
  have h_step : Step capacity commands (pair x y) ⟨Function.update (pair x y).call true y', none⟩ := .call h
  rwa [h_update] at h_step

end Pair

/-- A child that writes everything at once. -/
theorem Call.Step.writeAll {ended : Bool} {u : Str} (h_ne : u ≠ []) (h_room : u.length ≤ capacity) :
    Call.Step capacity command held unheld ⟨caller, .running (some u) ended, []⟩
      ⟨caller, .running (some []) ended, u⟩ := by
  have h := @Call.Step.write ι capacity command held unheld caller ended u [] [] h_ne h_room
  rwa [List.append_nil] at h

/-- A caller that reads everything at once. -/
theorem Call.Step.readAll {u : Str} (h_ne : u ≠ []) (h_size : u.length ≤ bufsize) :
    Call.Step capacity command held unheld ⟨.reading [], k, u⟩ ⟨.reading u, k, []⟩ := by
  have h := @Call.Step.read ι capacity command held unheld k [] u [] h_ne h_size
  rwa [List.append_nil] at h

/-- Two threads list a tree and read an object. -/
def listAndShow : Bool → Command
  | false => .runs (str "README\n") (.exited 0)
  | true => .runs (str "hello") (.exited 0)

/-- Both calls have returned. -/
def bothReturned : State Bool :=
  pair ⟨.returned (str "README\n") 0, .running none true, []⟩
    ⟨.returned (str "hello") 0, .running none true, []⟩

/-- Each child gets the write end of the other pipe too. The second call is at the end of its file only behind
the `execvp` of the first child. -/
theorem reachable_bothReturned : Reachable 65536 listAndShow bothReturned := by
  have h_initial : State.initial = pair .initial .initial := by
    rw [State.initial, pair]
    congr
    funext i
    cases i <;> rfl
  have h_list : str "README\n" ≠ [] := by decide
  have h_object : str "hello" ≠ [] := by decide
  rw [Reachable, h_initial]
  refine .head (step_first .pipe) (.head (step_second .pipe) (.head (step_first .fork) ?_))
  refine .head (step_second .fork) (.head (step_first .clear) (.head (step_second .clear) ?_))
  refine .head (step_second (.exec rfl)) (.head (step_second (.writeAll h_object (by decide))) ?_)
  refine .head (step_second (.readAll h_object (by decide))) (.head (step_second .exit) ?_)
  refine .head (step_second .close) (.head (step_first (.exec rfl)) ?_)
  refine .head (step_first (.writeAll h_list (by decide))) (.head (step_second (.eof ⟨rfl, ?_⟩)) ?_)
  · rintro (_ | _) h
    · cases h
    · exact h
  refine .head (step_first (.readAll h_list (by decide))) (.head (step_first .exit) ?_)
  refine .head (step_first .close) (.head (step_first (.eof ⟨rfl, ?_⟩)) ?_)
  · rintro (_ | _) h
    · exact h
    · exact h
  exact .head (step_first (.wait rfl)) (.single (step_second (.wait rfl)))

theorem returned_eq_output_both :
    (str "README\n" = (listAndShow false).output ∧ (listAndShow false).status = .exited 0 ∧
      (bothReturned.call false).pipe = []) ∧
    (str "hello" = (listAndShow true).output ∧ (listAndShow true).status = .exited 0 ∧
      (bothReturned.call true).pipe = []) :=
  ⟨(returned_eq_output reachable_bothReturned false).1 _ _ rfl,
    (returned_eq_output reachable_bothReturned true).1 _ _ rfl⟩

end GitlstreeFS.Popen
