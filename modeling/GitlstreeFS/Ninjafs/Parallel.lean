import GitlstreeFS.Effect.Descent
import GitlstreeFS.Effect.Marked
import GitlstreeFS.Ninjafs.Target

/-!
# Requests to `ninjafs` at the same time

FUSE calls `Open`, `Read` and `Getattr` of the targets and of the log from several threads. Each target has a
`mutex_`, which `Open` holds while `ninja` runs, and there is `global_ninja_mutex` besides. `Read` looks at
`buf_` before it takes `mutex_`.

* What is done under a mutex with nothing to wait for is one step, and so are the methods of the log, whose
  own mutex is only held for a moment.
* `Open` goes on step by step: `mutex_`, `global_ninja_mutex`, the run of `ninja`, `UpdateLog`, the empty
  string in `buf_`, and the output in it.
* A run of `ninja` for a target ends in one of the ways that `ninja` has. A failure of `PopenAndReadOrDie2` or
  `ReadFromFileOrDie` ends the program.

`Open` acts twice, on the log and then on its target, and each other request once. In the order of these
actions each target is the one of `Ninjafs.Run`, to which the calls come one by one (`linearizable`).
-/

namespace GitlstreeFS.Ninjafs.Parallel

open Effect Posix
open Relation (ReflTransGen)

/-! ### Requests and actions -/

/-- What a thread is asked. -/
inductive Request (τ : Type) where
  | openFile (t : τ)
  | read (t : τ) (size : Fin 0x100000000) (offset : Fin 0x8000000000000000)
  | getattr (t : τ)
  | readLog (size : Fin 0x100000000) (offset : Fin 0x8000000000000000)
  | getattrLog

/-- An action on the log. -/
inductive LogAct where
  | update (printed : Str)
  | read (size : Fin 0x100000000) (offset : Fin 0x8000000000000000) (a : Answer)
  | getattr (a : Answer)

/-- An action on a target, which is a call of `Ninjafs.Run` with its answer, or on the log. -/
inductive Act (τ Root : Type) where
  | target (t : τ) (call : Call Root) (a : Answer)
  | log (act : LogAct)

variable {ι τ Root : Type} [DecidableEq ι] [DecidableEq τ] [DecidableEq Root]

/-- The actions of a request. -/
inductive Performs : Request τ → List (Act τ Root) → Answer → Prop
  | loaded {t : τ} {build : Build Root} {a : Answer} : Performs (.openFile t) [.target t (.openFile build) a] a
  | built {t : τ} {build : Build Root} {a : Answer} :
      Performs (.openFile t) [.log (.update build.printed), .target t (.openFile build) a] a
  | read {t : τ} {size : Fin 0x100000000} {offset : Fin 0x8000000000000000} {a : Answer} :
      Performs (.read t size offset) [.target t (.read size offset) a] a
  | getattr {t : τ} {a : Answer} : Performs (.getattr t) [.target t .getattr a] a
  | readLog {size : Fin 0x100000000} {offset : Fin 0x8000000000000000} {a : Answer} :
      Performs (.readLog size offset) [.log (.read size offset a)] a
  | getattrLog {a : Answer} : Performs .getattrLog [.log (.getattr a)] a

/-- What is seen. -/
abbrev Seen (ι τ Root : Type) := Effect.Event ι (Request τ) (Act τ Root) Answer

/-- The calls of a target. -/
def callsOf (t : τ) (acts : List (Act τ Root)) : List (Call Root × Answer) :=
  acts.filterMap fun
    | .target t' call a => if t' = t then some (call, a) else none
    | .log _ => none

/-- The actions on the log. -/
def logOf (acts : List (Act τ Root)) : List LogAct :=
  acts.filterMap fun
    | .target _ _ _ => none
    | .log act => some act

/-- A log to which the actions come one by one. -/
inductive LogRun : List LogAct → Str → Prop
  | nil : LogRun [] []
  | update {acts : List LogAct} {log : Str} (h : LogRun acts log) (printed : Str) :
      LogRun (acts ++ [.update printed]) printed
  | read {acts : List LogAct} {log bytes : Str} {size : Fin 0x100000000} {offset : Fin 0x8000000000000000}
      {n : ℤ}
      (h : LogRun acts log) (h_read : NinjaLog.read log size offset = some (n, bytes)) :
      LogRun (acts ++ [.read size offset (.read n bytes)]) log
  | getattr {acts : List LogAct} {log : Str} (h : LogRun acts log) :
      LogRun (acts ++ [.getattr (.stat (NinjaLog.getattr log))]) log

/-! ### States -/

/-- A mutex. -/
inductive Lock (τ : Type) where
  | mutex (t : τ)
  | globalNinja
  deriving DecidableEq

/-- Where a thread is. -/
inductive Place (τ Root : Type) where
  | outside
  /-- It has been asked, and has no mutex -/
  | asked (r : Request τ)
  /-- `Open`, with `mutex_` -/
  | opening (t : τ)
  /-- with both, while `ninja` runs -/
  | running (t : τ)
  /-- behind that -/
  | exited (t : τ) (build : Build Root)
  /-- behind `UpdateLog` -/
  | logged (t : τ) (build : Build Root)
  /-- with an empty string in `buf_` -/
  | emptied (t : τ) (build : Build Root)
  /-- on the way out, with both -/
  | unlockBoth (t : τ) (a : Answer)
  /-- and with `mutex_` alone. -/
  | unlock (t : τ) (a : Answer)
  /-- `Read`, which has seen that there is a `buf_` -/
  | checked (t : τ) (size : Fin 0x100000000) (offset : Fin 0x8000000000000000)
  /-- Nothing is left but to return. -/
  | returning (a : Answer)

/-- The mutexes that a thread has. -/
def Place.holds : Place τ Root → Lock τ → Prop
  | .opening t, l | .unlock t _, l => l = .mutex t
  | .running t, l | .exited t _, l | .logged t _, l | .emptied t _, l | .unlockBoth t _, l =>
    l = .mutex t ∨ l = .globalNinja
  | _, _ => False

/-- What the threads share, and where they are. -/
structure State (ι τ Root : Type) where
  place : ι → Place τ Root
  holder : Lock τ → Option ι
  buf : τ → Option Str
  log : Str
  aborted : Bool

namespace State

/-- Behind `LoadDirectory`. -/
def initial : State ι τ Root :=
  ⟨fun _ => .outside, fun _ => none, fun _ => none, [], false⟩

/-- The thread goes on. -/
def goto (s : State ι τ Root) (i : ι) (x : Place τ Root) : State ι τ Root :=
  { s with place := Function.update s.place i x }

/-- It goes on with the mutex. -/
def acquire (s : State ι τ Root) (i : ι) (l : Lock τ) (x : Place τ Root) : State ι τ Root :=
  { s.goto i x with holder := Function.update s.holder l (some i) }

/-- It goes on without it. -/
def release (s : State ι τ Root) (i : ι) (l : Lock τ) (x : Place τ Root) : State ι τ Root :=
  { s.goto i x with holder := Function.update s.holder l none }

/-- It goes on, with something in `buf_`. -/
def fill (s : State ι τ Root) (i : ι) (t : τ) (buf : Str) (x : Place τ Root) : State ι τ Root :=
  { s.goto i x with buf := Function.update s.buf t (some buf) }

end State

/-! ### Steps -/

section Steps

variable (target : τ → Path Root) (ninja : τ → Build Root → Prop)

/-- `ReadFromFileOrDie` of the output, behind a build. -/
def readOutput (t : τ) (build : Build Root) : Outcome Bytes :=
  ((machine Root).run (readFromFileOrDie (target t)) .ENOENT [] build.files).outcome

/-- A step of a thread that has been asked, and what is seen of it. -/
inductive Work : State ι τ Root → List (Seen ι τ Root) → State ι τ Root → Prop
  | lock {s : State ι τ Root} {i : ι} {t : τ} (h : s.place i = .asked (.openFile t))
      (h_free : s.holder (.mutex t) = none) : Work s [] (s.acquire i (.mutex t) (.opening t))
  | loaded {s : State ι τ Root} {i : ι} {t : τ} {c : Str} (h : s.place i = .opening t)
      (h_buf : s.buf t = some c)
      (build : Build Root) :
      Work s [.acts i (.target t (.openFile build) (.opened 0))] (s.goto i (.unlock t (.opened 0)))
  | lockGlobal {s : State ι τ Root} {i : ι} {t : τ} (h : s.place i = .opening t) (h_buf : s.buf t = none)
      (h_free : s.holder .globalNinja = none) : Work s [] (s.acquire i .globalNinja (.running t))
  | exits {s : State ι τ Root} {i : ι} {t : τ} {build : Build Root} {n : ℕ} (h : s.place i = .running t)
      (h_build : ninja t build) (h_exit : build.exitCode = some n) : Work s [] (s.goto i (.exited t build))
  | signalled {s : State ι τ Root} {i : ι} {t : τ} {build : Build Root} (h : s.place i = .running t)
      (h_build : ninja t build) (h_exit : build.exitCode = none) : Work s [] { s with aborted := true }
  | updateLog {s : State ι τ Root} {i : ι} {t : τ} {build : Build Root} (h : s.place i = .exited t build) :
      Work s [.acts i (.log (.update build.printed))] { s.goto i (.logged t build) with log := build.printed }
  | fails {s : State ι τ Root} {i : ι} {t : τ} {build : Build Root} (h : s.place i = .logged t build)
      (h_exit : build.exitCode ≠ some 0) :
      Work s [.acts i (.target t (.openFile build) (.opened (-5)))] (s.goto i (.unlockBoth t (.opened (-5))))
  | empties {s : State ι τ Root} {i : ι} {t : τ} {build : Build Root} (h : s.place i = .logged t build)
      (h_exit : build.exitCode = some 0) : Work s [] (s.fill i t [] (.emptied t build))
  | fills {s : State ι τ Root} {i : ι} {t : τ} {build : Build Root} {c : Bytes}
      (h : s.place i = .emptied t build)
      (h_read : readOutput target t build = .done c) :
      Work s [.acts i (.target t (.openFile build) (.opened 0))] (s.fill i t c (.unlockBoth t (.opened 0)))
  | dies {s : State ι τ Root} {i : ι} {t : τ} {build : Build Root} (h : s.place i = .emptied t build)
      (h_read : ∀ c, readOutput target t build ≠ .done c) : Work s [] { s with aborted := true }
  | unlockGlobal {s : State ι τ Root} {i : ι} {t : τ} {a : Answer} (h : s.place i = .unlockBoth t a) :
      Work s [] (s.release i .globalNinja (.unlock t a))
  | unlock {s : State ι τ Root} {i : ι} {t : τ} {a : Answer} (h : s.place i = .unlock t a) :
      Work s [] (s.release i (.mutex t) (.returning a))
  /-- `Read`, without the mutex. -/
  | readNull {s : State ι τ Root} {i : ι} {t : τ} {size : Fin 0x100000000} {offset : Fin 0x8000000000000000}
      (h : s.place i = .asked (.read t size offset)) (h_buf : s.buf t = none) :
      Work s [.acts i (.target t (.read size offset) (.read (-5) []))] (s.goto i (.returning (.read (-5) [])))
  | checks {s : State ι τ Root} {i : ι} {t : τ} {size : Fin 0x100000000}
      {offset : Fin 0x8000000000000000} {c : Str}
      (h : s.place i = .asked (.read t size offset)) (h_buf : s.buf t = some c) :
      Work s [] (s.goto i (.checked t size offset))
  /-- And with it. -/
  | reads {s : State ι τ Root} {i : ι} {t : τ} {size : Fin 0x100000000}
      {offset : Fin 0x8000000000000000} {c bytes : Str}
      {n : ℤ} (h : s.place i = .checked t size offset) (h_free : s.holder (.mutex t) = none)
      (h_buf : s.buf t = some c)
      (h_read : readString c size offset = some (n, bytes)) :
      Work s [.acts i (.target t (.read size offset) (.read n bytes))] (s.goto i (.returning (.read n bytes)))
  | getattr {s : State ι τ Root} {i : ι} {t : τ} (h : s.place i = .asked (.getattr t))
      (h_free : s.holder (.mutex t) = none) :
      Work s [.acts i (.target t .getattr (.stat (NinjaTarget.getattr ⟨s.buf t, s.log, 0⟩)))]
        (s.goto i (.returning (.stat (NinjaTarget.getattr ⟨s.buf t, s.log, 0⟩))))
  | readLog {s : State ι τ Root} {i : ι} {size : Fin 0x100000000}
      {offset : Fin 0x8000000000000000} {bytes : Str} {n : ℤ}
      (h : s.place i = .asked (.readLog size offset))
      (h_read : NinjaLog.read s.log size offset = some (n, bytes)) :
      Work s [.acts i (.log (.read size offset (.read n bytes)))] (s.goto i (.returning (.read n bytes)))
  | getattrLog {s : State ι τ Root} {i : ι} (h : s.place i = .asked .getattrLog) :
      Work s [.acts i (.log (.getattr (.stat (NinjaLog.getattr s.log))))]
        (s.goto i (.returning (.stat (NinjaLog.getattr s.log))))
  | returns {s : State ι τ Root} {i : ι} {a : Answer} (h : s.place i = .returning a) :
      Work s [.returns i a] (s.goto i .outside)

/-- A step of some thread, as long as the program runs. -/
inductive Step : State ι τ Root → List (Seen ι τ Root) → State ι τ Root → Prop
  | begins {s : State ι τ Root} {i : ι} (h_live : s.aborted = false) (h : s.place i = .outside)
      (r : Request τ) :
      Step s [.begins i r] (s.goto i (.asked r))
  | works {s s' : State ι τ Root} {seen : List (Seen ι τ Root)} (h_live : s.aborted = false)
      (h : Work target ninja s seen s') : Step s seen s'

/-- The runs, with what is seen of them. -/
inductive Trace : List (Seen ι τ Root) → State ι τ Root → Prop
  | nil : Trace [] .initial
  | snoc {s s' : State ι τ Root} {events seen : List (Seen ι τ Root)} (h : Trace events s)
      (h_step : Step target ninja s seen s') : Trace (events ++ seen) s'

end Steps

/-! ### What all states have in common -/

variable {target : τ → Path Root} {ninja : τ → Build Root → Prop} {s s' : State ι τ Root} {i j : ι} {t : τ}
  {x : Place τ Root} {l : Lock τ} {events seen : List (Seen ι τ Root)} {build : Build Root}

/-- What a thread knows of the buffers. -/
def Place.Knows (buf : τ → Option Str) : Place τ Root → Prop
  | .running t => buf t = none
  | .exited t build | .logged t build => buf t = none ∧ build.exitCode ≠ none
  | .emptied t build => buf t = some [] ∧ build.exitCode = some 0
  | .checked t _ _ => buf t ≠ none
  | _ => True

/-- A mutex is held where the code holds it, and what the threads know is so. -/
structure Inv (s : State ι τ Root) : Prop where
  holds : ∀ i l, s.holder l = some i ↔ (s.place i).holds l
  knows : ∀ i, (s.place i).Knows s.buf

omit [DecidableEq ι] [DecidableEq τ] [DecidableEq Root] in
theorem inv_initial : Inv (State.initial : State ι τ Root) :=
  ⟨fun _ _ => ⟨fun h => (by cases h), fun h => h.elim⟩, fun _ => trivial⟩

namespace Inv

variable (h : Inv s)

include h

omit [DecidableEq ι] [DecidableEq τ] [DecidableEq Root] in
/-- Two threads do not hold the same mutex. -/
theorem unique (hi : (s.place i).holds l) (hj : (s.place j).holds l) : i = j :=
  Option.some.inj (((h.holds i l).mpr hi).symm.trans ((h.holds j l).mpr hj))

omit [DecidableEq τ] [DecidableEq Root] in
theorem knows_update (h_knows : x.Knows s.buf) (j : ι) : (Function.update s.place i x j).Knows s.buf :=
  (Function.forall_update_iff s.place fun _ x => x.Knows s.buf).mpr ⟨h_knows, fun j _ => h.knows j⟩ j

omit [DecidableEq τ] [DecidableEq Root] in
theorem holds_update (h_holds : ∀ l, x.holds l ↔ (s.place i).holds l) (j : ι) (l : Lock τ) :
    s.holder l = some j ↔ (Function.update s.place i x j).holds l := by
  rw [h.holds]
  by_cases h_j : j = i
  · subst h_j
    rw [Function.update_self, h_holds]
  · rw [Function.update_of_ne h_j]

omit [DecidableEq τ] [DecidableEq Root] in
/-- A thread goes on with the same mutexes. -/
theorem goto (h_holds : ∀ l, x.holds l ↔ (s.place i).holds l) (h_knows : x.Knows s.buf) : Inv (s.goto i x) :=
  ⟨h.holds_update h_holds, h.knows_update h_knows⟩

omit [DecidableEq Root] in
/-- With one more. -/
theorem acquire (h_free : s.holder l = none) (h_holds : ∀ l', x.holds l' ↔ l' = l ∨ (s.place i).holds l')
    (h_knows : x.Knows s.buf) : Inv (s.acquire i l x) := by
  refine ⟨fun j l' => ?_, h.knows_update h_knows⟩
  dsimp only [State.acquire, State.goto]
  have h_other := h.holds j l'
  by_cases h_j : j = i
  · subst h_j
    rw [Function.update_self, h_holds, ← h_other]
    by_cases h_l : l' = l
    · subst h_l
      rw [Function.update_self]
      exact iff_of_true rfl (.inl rfl)
    · rw [Function.update_of_ne h_l, or_iff_right h_l]
  · rw [Function.update_of_ne h_j, ← h_other]
    by_cases h_l : l' = l
    · subst h_l
      rw [Function.update_self, h_free]
      exact iff_of_false (by simpa using Ne.symm h_j) (by simp)
    · rw [Function.update_of_ne h_l]

omit [DecidableEq Root] in
/-- With one less. -/
theorem release (h_held : (s.place i).holds l) (h_holds : ∀ l', x.holds l' ↔ l' ≠ l ∧ (s.place i).holds l')
    (h_knows : x.Knows s.buf) : Inv (s.release i l x) := by
  refine ⟨fun j l' => ?_, h.knows_update h_knows⟩
  dsimp only [State.release, State.goto]
  have h_other := h.holds j l'
  by_cases h_l : l' = l
  · subst h_l
    rw [Function.update_self]
    refine iff_of_false (by simp) fun h_j => ?_
    by_cases h_i : j = i
    · subst h_i
      rw [Function.update_self, h_holds] at h_j
      exact h_j.1 rfl
    · rw [Function.update_of_ne h_i] at h_j
      exact h_i (h.unique h_j h_held)
  · rw [Function.update_of_ne h_l, h_other]
    by_cases h_i : j = i
    · subst h_i
      rw [Function.update_self, h_holds, and_iff_right h_l]
    · rw [Function.update_of_ne h_i]

omit [DecidableEq Root] in
/-- A thread with `mutex_` fills `buf_`. What others know is of other targets, or that there is a `buf_`. -/
theorem fill (h_held : (s.place i).holds (.mutex t)) (h_holds : ∀ l, x.holds l ↔ (s.place i).holds l) (c : Str)
    (h_knows : x.Knows (Function.update s.buf t (some c))) : Inv (s.fill i t c x) := by
  refine ⟨h.holds_update h_holds, ?_⟩
  refine (Function.forall_update_iff s.place fun _ x => x.Knows (Function.update s.buf t (some c))).mpr
    ⟨h_knows, fun j h_j => ?_⟩
  have h_other {t' : τ} (h_t : (s.place j).holds (.mutex t')) : t' ≠ t := by
    rintro rfl
    exact h_j (h.unique h_t h_held)
  have h_j := h.knows j
  cases h_place : s.place j with
  | running t' =>
    rw [h_place] at h_j h_other
    rw [Place.Knows, Function.update_of_ne (h_other (.inl rfl))]
    exact h_j
  | exited t' build =>
    rw [h_place] at h_j h_other
    rw [Place.Knows, Function.update_of_ne (h_other (.inl rfl))]
    exact h_j
  | logged t' build =>
    rw [h_place] at h_j h_other
    rw [Place.Knows, Function.update_of_ne (h_other (.inl rfl))]
    exact h_j
  | emptied t' build =>
    rw [h_place] at h_j h_other
    rw [Place.Knows, Function.update_of_ne (h_other (.inl rfl))]
    exact h_j
  | checked t' size offset =>
    rw [h_place] at h_j
    rw [Place.Knows]
    by_cases h_t : t' = t
    · subst h_t
      rw [Function.update_self]
      simp
    · rwa [Function.update_of_ne h_t]
  | _ => trivial

end Inv

omit [DecidableEq ι] [DecidableEq τ] [DecidableEq Root] in
theorem Inv.aborted (h : Inv s) (b : Bool) : Inv { s with aborted := b } :=
  ⟨h.holds, h.knows⟩

omit [DecidableEq ι] [DecidableEq τ] [DecidableEq Root] in
theorem Inv.log (h : Inv s) (log : Str) : Inv { s with log := log } :=
  ⟨h.holds, h.knows⟩

/-- **Step**: the invariant is kept. -/
theorem Inv.work (h : Inv s) (h_work : Work target ninja s seen s') : Inv s' := by
  cases h_work with
  | @lock i t h_i h_free =>
    exact h.acquire h_free (fun l => by rw [h_i]; exact (or_iff_left id).symm) trivial
  | @loaded i t c h_i h_buf build => exact h.goto (fun l => by rw [h_i]; rfl) trivial
  | @lockGlobal i t h_i h_buf h_free =>
    exact h.acquire h_free (fun l => by rw [h_i]; exact or_comm) h_buf
  | @exits i t build n h_i h_build h_exit =>
    have h_knows := h.knows i
    rw [h_i] at h_knows
    exact h.goto (fun l => by rw [h_i]; rfl) ⟨h_knows, by rw [h_exit]; simp⟩
  | signalled _ _ _ => exact h.aborted true
  | @updateLog i t build h_i =>
    have h_knows := h.knows i
    rw [h_i] at h_knows
    exact (h.goto (x := .logged t build) (fun l => by rw [h_i]; rfl) h_knows).log build.printed
  | fails h_i _ => exact h.goto (fun l => by rw [h_i]; rfl) trivial
  | @empties i t build h_i h_exit =>
    exact h.fill (by rw [h_i]; exact .inl rfl) (fun l => by rw [h_i]; rfl) [] ⟨Function.update_self .., h_exit⟩
  | @fills i t build c h_i h_read =>
    exact h.fill (by rw [h_i]; exact .inl rfl) (fun l => by rw [h_i]; rfl) c trivial
  | dies _ _ => exact h.aborted true
  | @unlockGlobal i t a h_i =>
    refine h.release (by rw [h_i]; exact .inr rfl) (fun l => ?_) trivial
    rw [h_i]
    cases l <;> simp [Place.holds]
  | @unlock i t a h_i =>
    refine h.release (by rw [h_i]; rfl) (fun l => ?_) trivial
    rw [h_i]
    exact iff_of_false id fun h_l => h_l.1 h_l.2
  | readNull h_i _ => exact h.goto (fun l => by rw [h_i]; rfl) trivial
  | checks h_i h_buf => exact h.goto (fun l => by rw [h_i]; rfl) (by rw [Place.Knows, h_buf]; simp)
  | reads h_i _ _ _ => exact h.goto (fun l => by rw [h_i]; rfl) trivial
  | getattr h_i _ => exact h.goto (fun l => by rw [h_i]; rfl) trivial
  | readLog h_i _ => exact h.goto (fun l => by rw [h_i]; rfl) trivial
  | getattrLog h_i => exact h.goto (fun l => by rw [h_i]; rfl) trivial
  | returns h_i => exact h.goto (fun l => by rw [h_i]; rfl) trivial

theorem Inv.step (h : Inv s) (h_step : Step target ninja s seen s') : Inv s' := by
  cases h_step with
  | begins _ h_i r => exact h.goto (fun l => by rw [h_i]; rfl) trivial
  | works _ h_work => exact h.work h_work

/-- **Run**: so it is in every state. -/
theorem Trace.inv (h : Trace target ninja events s) : Inv s := by
  induction h with
  | nil => exact inv_initial
  | snoc _ h_step ih => exact ih.step h_step

/-! ### Requests act while they are answered -/

/-- What a thread has done so far, by its place. -/
def Place.Fits : Place τ Root → Status (Request τ) (Act τ Root) → Prop
  | .outside, status => status = none
  | .asked r, status => status = some (r, [])
  | .opening t, status | .running t, status | .exited t _, status => status = some (.openFile t, [])
  | .logged t build, status | .emptied t build, status =>
    status = some (.openFile t, [.log (.update build.printed)])
  | .unlockBoth t a, status | .unlock t a, status =>
      ∃ done, status = some (.openFile t, done) ∧ Performs (.openFile t) done a
  | .checked t size offset, status => status = some (.read t size offset, [])
  | .returning a, status => ∃ r done, status = some (r, done) ∧ Performs r done a

/-- All that is seen is in its place. -/
def Marks (events : List (Seen ι τ Root)) (s : State ι τ Root) : Prop :=
  ∃ status, Marked Performs events status ∧ ∀ i, (s.place i).Fits (status i)

omit [DecidableEq τ] [DecidableEq Root] in
theorem fits_update {place : ι → Place τ Root} {status : ι → Status (Request τ) (Act τ Root)}
    (h : ∀ j, (place j).Fits (status j)) {now : Status (Request τ) (Act τ Root)} (h_x : x.Fits now) (j : ι) :
    (Function.update place i x j).Fits (Function.update status i now j) := by
  by_cases h_j : j = i
  · subst h_j
    rwa [Function.update_self, Function.update_self]
  · rw [Function.update_of_ne h_j, Function.update_of_ne h_j]
    exact h j

omit [DecidableEq τ] [DecidableEq Root] in
/-- Nothing is seen. -/
theorem Marks.silent (h : Marks events s) (h_fits : ∀ status, (s.place i).Fits status → x.Fits status) :
    Marks (events ++ []) (s.goto i x) := by
  obtain ⟨status, h_marked, h_all⟩ := h
  rw [List.append_nil]
  refine ⟨status, h_marked, fun j => ?_⟩
  dsimp only [State.goto]
  by_cases h_j : j = i
  · subst h_j
    rw [Function.update_self]
    exact h_fits _ (h_all j)
  · rw [Function.update_of_ne h_j]
    exact h_all j

omit [DecidableEq τ] [DecidableEq Root] in
/-- The thread acts. -/
theorem Marks.acts (h : Marks events s) {e : Act τ Root}
    (h_fits : ∀ status, (s.place i).Fits status →
      ∃ r done, status = some (r, done) ∧ x.Fits (some (r, done ++ [e]))) :
    Marks (events ++ [.acts i e]) (s.goto i x) := by
  obtain ⟨status, h_marked, h_all⟩ := h
  obtain ⟨r, done, h_i, h_x⟩ := h_fits _ (h_all i)
  exact ⟨_, h_marked.acts h_i, fits_update h_all h_x⟩

omit [DecidableEq τ] [DecidableEq Root] in
theorem Marks.congr (h : Marks events s) (h_place : s'.place = s.place) : Marks events s' := by
  obtain ⟨status, h_marked, h_all⟩ := h
  exact ⟨status, h_marked, h_place ▸ h_all⟩

theorem Marks.work (h : Marks events s) (h_work : Work target ninja s seen s') : Marks (events ++ seen) s' := by
  cases h_work with
  | @lock i t h_i h_free =>
    exact (h.silent (x := .opening t) fun status h_status => by rw [h_i] at h_status; exact h_status).congr rfl
  | @loaded i t c h_i h_buf build =>
    refine h.acts fun status h_status => ?_
    rw [h_i] at h_status
    exact ⟨_, _, h_status, _, rfl, .loaded⟩
  | @lockGlobal i t h_i h_buf h_free =>
    exact (h.silent (x := .running t) fun status h_status => by rw [h_i] at h_status; exact h_status).congr rfl
  | @exits i t build n h_i h_build h_exit =>
    exact h.silent fun status h_status => by rw [h_i] at h_status; exact h_status
  | signalled _ _ _ => exact (List.append_nil events ▸ h).congr rfl
  | @updateLog i t build h_i =>
    refine (h.acts (x := .logged t build) fun status h_status => ?_).congr rfl
    rw [h_i] at h_status
    exact ⟨_, _, h_status, rfl⟩
  | @fails i t build h_i h_exit =>
    refine h.acts fun status h_status => ?_
    rw [h_i] at h_status
    exact ⟨_, _, h_status, _, rfl, .built⟩
  | @empties i t build h_i h_exit =>
    exact (h.silent (x := .emptied t build) fun status h_status => by
      rw [h_i] at h_status; exact h_status).congr rfl
  | @fills i t build c h_i h_read =>
    refine (h.acts (x := .unlockBoth t (.opened 0)) fun status h_status => ?_).congr rfl
    rw [h_i] at h_status
    exact ⟨_, _, h_status, _, rfl, .built⟩
  | dies _ _ => exact (List.append_nil events ▸ h).congr rfl
  | @unlockGlobal i t a h_i =>
    exact (h.silent (x := .unlock t a) fun status h_status => by rw [h_i] at h_status; exact h_status).congr rfl
  | @unlock i t a h_i =>
    refine (h.silent (x := .returning a) fun status h_status => ?_).congr rfl
    rw [h_i] at h_status
    obtain ⟨done, h_status, h_performs⟩ := h_status
    exact ⟨_, done, h_status, h_performs⟩
  | @readNull i t size offset h_i h_buf =>
    refine h.acts fun status h_status => ?_
    rw [h_i] at h_status
    exact ⟨_, _, h_status, _, _, rfl, .read⟩
  | @checks i t size offset c h_i h_buf =>
    exact h.silent fun status h_status => by rw [h_i] at h_status; exact h_status
  | @reads i t size offset c bytes n h_i h_free h_buf h_read =>
    refine h.acts fun status h_status => ?_
    rw [h_i] at h_status
    exact ⟨_, _, h_status, _, _, rfl, .read⟩
  | @getattr i t h_i h_free =>
    refine h.acts fun status h_status => ?_
    rw [h_i] at h_status
    exact ⟨_, _, h_status, _, _, rfl, .getattr⟩
  | @readLog i size offset bytes n h_i h_read =>
    refine h.acts fun status h_status => ?_
    rw [h_i] at h_status
    exact ⟨_, _, h_status, _, _, rfl, .readLog⟩
  | @getattrLog i h_i =>
    refine h.acts fun status h_status => ?_
    rw [h_i] at h_status
    exact ⟨_, _, h_status, _, _, rfl, .getattrLog⟩
  | @returns i a h_i =>
    -- what the thread has done is what the answer asks for
    obtain ⟨status, h_marked, h_all⟩ := h
    have h_status := h_all i
    rw [h_i] at h_status
    obtain ⟨r, done, h_status, h_performs⟩ := h_status
    exact ⟨_, h_marked.returns h_status h_performs, fits_update h_all rfl⟩

theorem Marks.step (h : Marks events s) (h_step : Step target ninja s seen s') : Marks (events ++ seen) s' := by
  cases h_step with
  | @begins i _ h_i r =>
    obtain ⟨status, h_marked, h_all⟩ := h
    have h_status := h_all i
    rw [h_i] at h_status
    exact ⟨_, h_marked.begins h_status, fits_update h_all rfl⟩
  | works _ h_work => exact h.work h_work

theorem Trace.marks (h : Trace target ninja events s) : Marks events s := by
  induction h with
  | nil => exact ⟨_, .nil, fun _ => rfl⟩
  | snoc _ h_step ih => exact ih.step h_step

/-! ### Each target by itself -/

/-- The target whose `buf_` the thread has emptied, and not filled yet. -/
def Place.emptiedOf : Place τ Root → Option τ
  | .emptied t _ => some t
  | _ => none

/-- `buf_` is there, without the output. -/
def Emptied (s : State ι τ Root) (t : τ) : Prop :=
  ∃ i, (s.place i).emptiedOf = some t

/-- What `buf_` is to those who ask: a string is there once it is filled. -/
def Agrees (s : State ι τ Root) (t : τ) (b : Option Str) : Prop :=
  Emptied s t ∧ b = none ∨ ¬ Emptied s t ∧ b = s.buf t

/-- So far each target has been one to which the calls come one by one. -/
def Follows (target : τ → Path Root) (events : List (Seen ι τ Root)) (s : State ι τ Root) : Prop :=
  ∀ t, ∃ st, Run (target t) (Ninjafs.State.initial [] 0) (callsOf t (actions events)) st ∧ Agrees s t st.buf

omit [DecidableEq τ] [DecidableEq Root] in
theorem emptied_goto (h : x.emptiedOf = (s.place i).emptiedOf) : Emptied (s.goto i x) t ↔ Emptied s t := by
  refine exists_congr fun j => ?_
  dsimp only [State.goto]
  by_cases h_j : j = i
  · subst h_j
    rw [Function.update_self, h]
  · rw [Function.update_of_ne h_j]

omit [DecidableEq τ] [DecidableEq Root] in
theorem agrees_goto {b : Option Str} (h : x.emptiedOf = (s.place i).emptiedOf) :
    Agrees (s.goto i x) t b ↔ Agrees s t b := by
  rw [Agrees, Agrees, emptied_goto h]
  rfl

omit [DecidableEq Root] in
/-- A thread fills the `buf_` of another target. -/
theorem agrees_fill_of_ne {t' : τ} {b : Option Str} {c : Str} (h_ne : t' ≠ t) (h_x : x.emptiedOf ≠ some t')
    (h_i : (s.place i).emptiedOf ≠ some t') : Agrees (s.fill i t c x) t' b ↔ Agrees s t' b := by
  have h_emptied : Emptied (s.fill i t c x) t' ↔ Emptied s t' := by
    refine exists_congr fun j => ?_
    dsimp only [State.fill, State.goto]
    by_cases h_j : j = i
    · subst h_j
      rw [Function.update_self]
      exact iff_of_false h_x h_i
    · rw [Function.update_of_ne h_j]
  rw [Agrees, Agrees, h_emptied]
  dsimp only [State.fill]
  rw [Function.update_of_ne h_ne]

omit [DecidableEq ι] [DecidableEq τ] [DecidableEq Root] in
/-- `mutex_` is held while `buf_` is emptied. -/
theorem Inv.holder_of_emptied (h : Inv s) (h_i : (s.place i).emptiedOf = some t) :
    s.holder (.mutex t) = some i := by
  rw [h.holds]
  cases h_place : s.place i with
  | emptied t' build =>
    rw [h_place] at h_i
    obtain rfl := Option.some.inj h_i
    exact .inl rfl
  | _ =>
    rw [h_place] at h_i
    cases h_i

omit [DecidableEq ι] [DecidableEq τ] [DecidableEq Root] in
/-- Where `mutex_` is free, or where its holder has not emptied `buf_`, `buf_` is what it is. -/
theorem Inv.agrees_iff (h : Inv s) (h_none : ∀ i, s.holder (.mutex t) = some i → (s.place i).emptiedOf ≠ some t)
    {b : Option Str} : Agrees s t b ↔ b = s.buf t := by
  have h_not : ¬ Emptied s t := fun ⟨i, h_i⟩ => h_none i (h.holder_of_emptied h_i) h_i
  rw [Agrees, or_iff_right fun h_and => h_not h_and.1, and_iff_right h_not]

omit [DecidableEq Root] in
theorem callsOf_append (t : τ) (acts acts' : List (Act τ Root)) :
    callsOf t (acts ++ acts') = callsOf t acts ++ callsOf t acts' :=
  List.filterMap_append

omit [DecidableEq ι] in
/-- No target is called. -/
theorem Follows.silent (h : Follows target events s) (h_seen : ∀ t, callsOf t (actions seen) = [])
    (h_agrees : ∀ t b, Agrees s t b → Agrees s' t b) : Follows target (events ++ seen) s' := by
  intro t
  obtain ⟨st, h_run, h_st⟩ := h t
  refine ⟨st, ?_, h_agrees t _ h_st⟩
  rw [actions_append, callsOf_append, h_seen, List.append_nil]
  exact h_run

omit [DecidableEq ι] in
/-- One of them is. -/
theorem Follows.acts (h : Follows target events s) {call : Call Root} {a : Answer}
    (h_call : ∀ st : Ninjafs.State, Agrees s t st.buf →
      ∃ st', call.perform (target t) st = some (a, st') ∧ Agrees s' t st'.buf)
    (h_agrees : ∀ t' b, t' ≠ t → Agrees s t' b → Agrees s' t' b) :
    Follows target (events ++ [.acts i (.target t call a)]) s' := by
  intro t'
  obtain ⟨st, h_run, h_st⟩ := h t'
  rw [actions_append, callsOf_append, actions_acts]
  by_cases h_t : t' = t
  · subst h_t
    obtain ⟨st', h_perform, h_st'⟩ := h_call st h_st
    refine ⟨st', ?_, h_st'⟩
    have h_calls : callsOf t' [Act.target t' call a] = [(call, a)] := by
      simp [callsOf]
    rw [h_calls]
    exact h_run.snoc h_perform
  · refine ⟨st, ?_, h_agrees t' _ h_t h_st⟩
    have h_calls : callsOf t' [Act.target t call a] = [] := by
      simp [callsOf, Ne.symm h_t]
    rw [h_calls, List.append_nil]
    exact h_run

omit [DecidableEq ι] [DecidableEq τ] [DecidableEq Root] in
theorem agrees_congr {b : Option Str} (h_place : s'.place = s.place) (h_buf : s'.buf = s.buf) :
    Agrees s' t b ↔ Agrees s t b := by
  rw [Agrees, Agrees, Emptied, Emptied, h_place, h_buf]

omit [DecidableEq ι] [DecidableEq τ] [DecidableEq Root] in
/-- Where the thread with `mutex_` has not emptied `buf_`, it is what it is. -/
theorem Inv.agrees_of_holds (h : Inv s) (h_i : (s.place i).holds (.mutex t))
    (h_not : (s.place i).emptiedOf ≠ some t)
    {b : Option Str} : Agrees s t b ↔ b = s.buf t := by
  refine h.agrees_iff fun j h_j => ?_
  rw [Option.some.inj (h_j.symm.trans ((h.holds i _).mpr h_i))]
  exact h_not

omit [DecidableEq τ] [DecidableEq Root] in
/-- A thread goes on, and leaves `buf_` as it is. -/
theorem agrees_update {b : Option Str} (h_place : s'.place = Function.update s.place i x)
    (h_buf : s'.buf = s.buf)
    (h_x : x.emptiedOf = (s.place i).emptiedOf) : Agrees s' t b ↔ Agrees s t b :=
  (agrees_congr (s := s.goto i x) h_place h_buf).trans (agrees_goto h_x)

/-- No target is called, and no `buf_` is filled. -/
theorem Follows.goes (h : Follows target events s) (h_seen : ∀ t, callsOf t (actions seen) = [])
    (h_place : s'.place = Function.update s.place i x) (h_buf : s'.buf = s.buf)
    (h_x : x.emptiedOf = (s.place i).emptiedOf) : Follows target (events ++ seen) s' :=
  h.silent h_seen fun _ _ h_b => (agrees_update h_place h_buf h_x).mpr h_b

/-- A target is called, and no `buf_` is filled. -/
theorem Follows.calls (h : Follows target events s) {call : Call Root} {a : Answer}
    (h_place : s'.place = Function.update s.place i x) (h_buf : s'.buf = s.buf)
    (h_x : x.emptiedOf = (s.place i).emptiedOf) (h_call : ∀ st : Ninjafs.State, Agrees s t st.buf →
      ∃ st', call.perform (target t) st = some (a, st') ∧ st'.buf = st.buf) :
    Follows target (events ++ [.acts i (.target t call a)]) s' := by
  refine h.acts (fun st h_st => ?_) fun t' b _ h_b => (agrees_update h_place h_buf h_x).mpr h_b
  obtain ⟨st', h_perform, h_st'⟩ := h_call st h_st
  exact ⟨st', h_perform, (agrees_update h_place h_buf h_x).mpr (h_st' ▸ h_st)⟩

theorem Follows.work (h : Follows target events s) (h_inv : Inv s) (h_work : Work target ninja s seen s') :
    Follows target (events ++ seen) s' := by
  cases h_work with
  | lock h_i _ => exact h.goes (fun _ => rfl) rfl rfl (by rw [h_i]; rfl)
  | @loaded i t c h_i h_buf build =>
    refine h.calls rfl rfl (by rw [h_i]; rfl) fun st h_st => ⟨st, ?_, rfl⟩
    have h_st := (h_inv.agrees_of_holds (i := i)
      (by rw [h_i]; rfl) (by rw [h_i]; simp [Place.emptiedOf])).mp h_st
    rw [Call.perform, openFile_loaded build (h_st.trans h_buf)]
  | lockGlobal h_i _ _ => exact h.goes (fun _ => rfl) rfl rfl (by rw [h_i]; rfl)
  | exits h_i _ _ => exact h.goes (fun _ => rfl) rfl rfl (by rw [h_i]; rfl)
  | signalled _ _ _ => exact h.silent (fun _ => rfl) fun t' b h_b => (agrees_congr rfl rfl).mpr h_b
  | updateLog h_i => exact h.goes (fun _ => rfl) rfl rfl (by rw [h_i]; rfl)
  | @fails i t build h_i h_exit =>
    have h_knows := h_inv.knows i
    rw [h_i] at h_knows
    refine h.calls rfl rfl (by rw [h_i]; rfl) fun st h_st => ?_
    have h_st := (h_inv.agrees_of_holds (i := i) (by rw [h_i]; exact .inl rfl)
      (by rw [h_i]; simp [Place.emptiedOf])).mp h_st
    obtain ⟨n, h_n⟩ := Option.ne_none_iff_exists'.mp h_knows.2
    have h_ne : n ≠ 0 := by
      rintro rfl
      exact h_exit h_n
    refine ⟨{ st with log := build.printed, runs := st.runs + 1 }, ?_, rfl⟩
    rw [Call.perform, NinjaTarget.openFile, h_st.trans h_knows.1]
    simp only [h_n, if_neg h_ne]
  | @empties i t build h_i h_exit =>
    have h_knows := h_inv.knows i
    rw [h_i] at h_knows
    refine h.silent (fun _ => rfl) fun t' b h_b => ?_
    by_cases h_t : t' = t
    · -- nothing has been in `buf_`, and nothing is in it yet
      subst h_t
      refine .inl ⟨⟨i, ?_⟩, ?_⟩
      · dsimp only [State.fill, State.goto]
        rw [Function.update_self]
        rfl
      · exact h_knows.1 ▸ (h_inv.agrees_of_holds (i := i) (by rw [h_i]; exact .inl rfl)
          (by rw [h_i]; simp [Place.emptiedOf])).mp h_b
    · exact (agrees_fill_of_ne h_t (by simpa [Place.emptiedOf] using Ne.symm h_t)
        (by rw [h_i]; simp [Place.emptiedOf])).mpr h_b
  | @fills i t build c h_i h_read =>
    have h_knows := h_inv.knows i
    rw [h_i] at h_knows
    have h_held : (s.place i).holds (.mutex t) := by
      rw [h_i]
      exact .inl rfl
    refine h.acts (fun st h_st => ⟨⟨some c, build.printed, st.runs + 1⟩, ?_, .inr ⟨?_, ?_⟩⟩)
      fun t' b h_t h_b => ?_
    · have h_none : st.buf = none := by
        obtain ⟨-, h_none⟩ | ⟨h_not, -⟩ := h_st
        · exact h_none
        · exact absurd ⟨i, by rw [h_i]; rfl⟩ h_not
      have h_run :
        ((machine Root).run (readFromFileOrDie (target t)) .ENOENT [] build.files).outcome = .done c := h_read
      rw [Call.perform, NinjaTarget.openFile, h_none]
      simp only [h_knows.2, if_true, h_run]
    · -- a thread that has emptied it would hold the same mutex
      rintro ⟨j, h_j⟩
      dsimp only [State.fill, State.goto] at h_j
      by_cases h_eq : j = i
      · subst h_eq
        rw [Function.update_self] at h_j
        cases h_j
      · rw [Function.update_of_ne h_eq] at h_j
        exact h_eq (h_inv.unique ((h_inv.holds j _).mp (h_inv.holder_of_emptied h_j)) h_held)
    · dsimp only [State.fill]
      rw [Function.update_self]
    · exact (agrees_fill_of_ne h_t (by simp [Place.emptiedOf])
        (by rw [h_i]; simpa [Place.emptiedOf] using Ne.symm h_t)).mpr h_b
  | dies _ _ => exact h.silent (fun _ => rfl) fun t' b h_b => (agrees_congr rfl rfl).mpr h_b
  | unlockGlobal h_i => exact h.goes (fun _ => rfl) rfl rfl (by rw [h_i]; rfl)
  | unlock h_i => exact h.goes (fun _ => rfl) rfl rfl (by rw [h_i]; rfl)
  | @readNull i t size offset h_i h_buf =>
    refine h.calls rfl rfl (by rw [h_i]; rfl) fun st h_st => ⟨st, ?_, rfl⟩
    have h_none : st.buf = none := by
      obtain ⟨-, h_none⟩ | ⟨-, h_eq⟩ := h_st
      · exact h_none
      · exact h_eq.trans h_buf
    rw [Call.perform, NinjaTarget.read, h_none]
    rfl
  | checks h_i _ => exact h.goes (fun _ => rfl) rfl rfl (by rw [h_i]; rfl)
  | @reads i t size offset c bytes n h_i h_free h_buf h_read =>
    refine h.calls rfl rfl (by rw [h_i]; rfl) fun st h_st => ⟨st, ?_, rfl⟩
    have h_st := (h_inv.agrees_iff (fun j h_j => by rw [h_free] at h_j; cases h_j)).mp h_st
    rw [Call.perform, NinjaTarget.read, h_st.trans h_buf]
    dsimp only
    rw [h_read]
    rfl
  | @getattr i t h_i h_free =>
    refine h.calls rfl rfl (by rw [h_i]; rfl) fun st h_st => ⟨st, ?_, rfl⟩
    have h_st := (h_inv.agrees_iff (fun j h_j => by rw [h_free] at h_j; cases h_j)).mp h_st
    rw [Call.perform, NinjaTarget.getattr, NinjaTarget.getattr, h_st]
  | readLog h_i _ => exact h.goes (fun _ => rfl) rfl rfl (by rw [h_i]; rfl)
  | getattrLog h_i => exact h.goes (fun _ => rfl) rfl rfl (by rw [h_i]; rfl)
  | returns h_i => exact h.goes (fun _ => rfl) rfl rfl (by rw [h_i]; rfl)

theorem Follows.step (h : Follows target events s) (h_inv : Inv s) (h_step : Step target ninja s seen s') :
    Follows target (events ++ seen) s' := by
  cases h_step with
  | begins _ h_i r => exact h.goes (fun _ => rfl) rfl rfl (by rw [h_i]; rfl)
  | works _ h_work => exact h.work h_inv h_work

theorem Trace.follows (h : Trace target ninja events s) : Follows target events s := by
  induction h with
  | nil => exact fun t => ⟨_, .nil, .inr ⟨fun ⟨_, h_i⟩ => (by cases h_i), rfl⟩⟩
  | snoc h h_step ih => exact ih.step h.inv h_step

/-! ### The log -/

omit [DecidableEq ι] [DecidableEq τ] [DecidableEq Root] in
theorem logOf_append (acts acts' : List (Act τ Root)) : logOf (acts ++ acts') = logOf acts ++ logOf acts' :=
  List.filterMap_append

theorem logRun_work (h : LogRun (logOf (actions events)) s.log) (h_work : Work target ninja s seen s') :
    LogRun (logOf (actions (events ++ seen))) s'.log := by
  rw [actions_append, logOf_append]
  cases h_work with
  | updateLog h_i => exact h.update _
  | readLog h_i h_read => exact h.read h_read
  | getattrLog h_i => exact h.getattr
  | _ =>
    -- the log is as it was, and not seen
    exact (List.append_nil (logOf (actions events))).symm ▸ h

theorem Trace.logRun (h : Trace target ninja events s) : LogRun (logOf (actions events)) s.log := by
  induction h with
  | nil => exact .nil
  | snoc _ h_step ih =>
    cases h_step with
    | begins _ _ r =>
      rw [actions_append, logOf_append]
      exact (List.append_nil (logOf (actions _))).symm ▸ ih
    | works _ h_work => exact logRun_work ih h_work

/-- **The requests take effect one by one.** Whatever threads are asked at the same time, each request takes
effect between its beginning and its return; in the order in which this happens each target goes through a run
of its own, as if its calls had come one after the other, and so does the log. -/
theorem linearizable (h : Trace target ninja events s) :
    (∃ status, Marked Performs events status) ∧
      (∀ t, ∃ st, Run (target t) (Ninjafs.State.initial [] 0) (callsOf t (actions events)) st) ∧
      ∃ log, LogRun (logOf (actions events)) log := by
  obtain ⟨status, h_marked, -⟩ := h.marks
  refine ⟨⟨status, h_marked⟩, fun t => ?_, s.log, h.logRun⟩
  obtain ⟨st, h_run, -⟩ := h.follows t
  exact ⟨st, h_run⟩

/-- While one thread builds the target, another reads it. -/
def readDuringBuild : List (Seen Bool Unit Unit) :=
  [.begins false (.openFile ()), .begins true (.read () 4 0),
    .acts true (.target () (.read 4 0) (.read (-5) [])), .acts false (.log (.update success.printed)),
    .acts false (.target () (.openFile success) (.opened 0)), .returns true (.read (-5) []),
    .returns false (.opened 0)]

theorem exists_trace_readDuringBuild :
    ∃ s, Trace (fun _ => targetAll) (fun _ build => build = success) readDuringBuild s := by
  have h_read : readOutput (fun _ => targetAll) () success = .done [104, 105] := by decide +kernel
  have h_begun : Trace (fun _ => targetAll) (fun _ build => build = success) _ _ :=
    ((@Trace.nil Bool Unit Unit _ _ _ _).snoc (.begins rfl (i := false) rfl (.openFile ()))).snoc
      (.begins rfl (i := true) rfl (.read () 4 0))
  have h_running :=
    (h_begun.snoc (.works rfl (.lock (i := false) rfl rfl))).snoc
      (.works rfl (.lockGlobal (i := false) rfl rfl rfl))
  have h_exited :=
    (h_running.snoc (.works rfl (.readNull (i := true) rfl rfl))).snoc
      (.works rfl (.exits (i := false) rfl rfl rfl))
  have h_filled :=
    ((h_exited.snoc (.works rfl (.updateLog (i := false) rfl))).snoc
      (.works rfl (.empties (i := false) rfl rfl))).snoc (.works rfl (.fills (i := false) rfl h_read))
  have h_unlocked :=
    (h_filled.snoc (.works rfl (.unlockGlobal (i := false) rfl))).snoc (.works rfl (.unlock (i := false) rfl))
  have h_returned := h_unlocked.snoc (.works rfl (.returns (i := true) rfl))
  exact ⟨_, h_returned.snoc (.works rfl (.returns (i := false) rfl))⟩

theorem linearizable_readDuringBuild :
    (∃ status, Marked Performs readDuringBuild status) ∧
      (∀ t, ∃ st, Run targetAll (Ninjafs.State.initial [] 0) (callsOf t (actions readDuringBuild)) st) ∧
      ∃ log, LogRun (logOf (actions readDuringBuild)) log := by
  obtain ⟨s, h_trace⟩ := exists_trace_readDuringBuild
  exact linearizable h_trace

/-! ### All requests are answered -/

/-- A thread that has been asked goes on. -/
def Goes (target : τ → Path Root) (ninja : τ → Build Root → Prop) (s s' : State ι τ Root) : Prop :=
  s.aborted = false ∧ ∃ seen, Work target ninja s seen s'

/-- How far a thread is from its return. -/
def Place.rank : Place τ Root → ℕ
  | .outside => 0
  | .returning _ => 1
  | .unlock _ _ | .checked _ _ _ => 2
  | .unlockBoth _ _ => 3
  | .emptied _ _ => 4
  | .logged _ _ => 5
  | .exited _ _ => 6
  | .running _ => 7
  | .opening _ => 8
  | .asked _ => 9

/-- How far all are, and whether the program runs. -/
def State.rank [Fintype ι] (s : State ι τ Root) : ℕ :=
  (if s.aborted then 0 else 1) + ∑ i, (s.place i).rank

omit [DecidableEq τ] [DecidableEq Root] in
theorem rank_update_lt [Fintype ι] (h_place : s'.place = Function.update s.place i x)
    (h_aborted : s'.aborted = s.aborted)
    (h_x : x.rank < (s.place i).rank) : s'.rank < s.rank := by
  rw [State.rank, State.rank, h_place, h_aborted]
  exact Nat.add_lt_add_left (Descent.sum_rank_lt (f := fun _ x => Place.rank x) h_x) _

theorem Goes.rank_lt [Fintype ι] (h : Goes target ninja s s') : s'.rank < s.rank := by
  obtain ⟨h_live, seen, h_work⟩ := h
  have h_aborted : State.rank { s with aborted := true } < s.rank := by
    rw [State.rank, State.rank, h_live]
    simp
  cases h_work with
  | signalled _ _ _ => exact h_aborted
  | dies _ _ => exact h_aborted
  | lock h_i _ => exact rank_update_lt rfl rfl (by simp [h_i, Place.rank])
  | loaded h_i _ _ => exact rank_update_lt rfl rfl (by simp [h_i, Place.rank])
  | lockGlobal h_i _ _ => exact rank_update_lt rfl rfl (by simp [h_i, Place.rank])
  | exits h_i _ _ => exact rank_update_lt rfl rfl (by simp [h_i, Place.rank])
  | updateLog h_i => exact rank_update_lt rfl rfl (by simp [h_i, Place.rank])
  | fails h_i _ => exact rank_update_lt rfl rfl (by simp [h_i, Place.rank])
  | empties h_i _ => exact rank_update_lt rfl rfl (by simp [h_i, Place.rank])
  | fills h_i _ => exact rank_update_lt rfl rfl (by simp [h_i, Place.rank])
  | unlockGlobal h_i => exact rank_update_lt rfl rfl (by simp [h_i, Place.rank])
  | unlock h_i => exact rank_update_lt rfl rfl (by simp [h_i, Place.rank])
  | readNull h_i _ => exact rank_update_lt rfl rfl (by simp [h_i, Place.rank])
  | checks h_i _ => exact rank_update_lt rfl rfl (by simp [h_i, Place.rank])
  | reads h_i _ _ _ => exact rank_update_lt rfl rfl (by simp [h_i, Place.rank])
  | getattr h_i _ => exact rank_update_lt rfl rfl (by simp [h_i, Place.rank])
  | readLog h_i _ => exact rank_update_lt rfl rfl (by simp [h_i, Place.rank])
  | getattrLog h_i => exact rank_update_lt rfl rfl (by simp [h_i, Place.rank])
  | returns h_i => exact rank_update_lt rfl rfl (by simp [h_i, Place.rank])

/-- The thread with the global mutex waits for nobody. -/
theorem work_of_global (h_ends : ∀ t, ∃ build, ninja t build) (h_i : (s.place i).holds .globalNinja) :
    ∃ seen s', Work target ninja s seen s' := by
  cases h_place : s.place i with
  | running t =>
    obtain ⟨build, h_build⟩ := h_ends t
    cases h_exit : build.exitCode with
    | none => exact ⟨_, _, .signalled h_place h_build h_exit⟩
    | some n => exact ⟨_, _, .exits h_place h_build h_exit⟩
  | exited t build => exact ⟨_, _, .updateLog h_place⟩
  | logged t build =>
    by_cases h_exit : build.exitCode = some 0
    · exact ⟨_, _, .empties h_place h_exit⟩
    · exact ⟨_, _, .fails h_place h_exit⟩
  | emptied t build =>
    by_cases h_read : ∃ c, readOutput target t build = .done c
    · obtain ⟨c, h_c⟩ := h_read
      exact ⟨_, _, .fills h_place h_c⟩
    · exact ⟨_, _, .dies h_place (not_exists.mp h_read)⟩
  | unlockBoth t a => exact ⟨_, _, .unlockGlobal h_place⟩
  | _ =>
    rw [h_place] at h_i
    cases h_i

/-- A thread with a `mutex_` waits for that thread at most. -/
theorem Inv.work_of_mutex (h : Inv s) (h_ends : ∀ t, ∃ build, ninja t build)
    (h_i : (s.place i).holds (.mutex t)) :
    ∃ seen s', Work target ninja s seen s' := by
  cases h_place : s.place i with
  | opening t' =>
    cases h_buf : s.buf t' with
    | some c =>
      obtain ⟨build, -⟩ := h_ends t'
      exact ⟨_, _, .loaded h_place h_buf build⟩
    | none =>
      cases h_holder : s.holder .globalNinja with
      | none => exact ⟨_, _, .lockGlobal h_place h_buf h_holder⟩
      | some j => exact work_of_global h_ends ((h.holds j _).mp h_holder)
  | unlock t' a => exact ⟨_, _, .unlock h_place⟩
  | running | exited | logged | emptied | unlockBoth =>
    exact work_of_global h_ends (i := i) (by rw [h_place]; exact .inr rfl)
  | _ =>
    rw [h_place] at h_i
    cases h_i

/-- **No deadlock.** As long as a thread has not answered, some thread goes on. -/
theorem Inv.exists_work (h : Inv s) (h_ends : ∀ t, ∃ build, ninja t build) (h_i : s.place i ≠ .outside) :
    ∃ seen s', Work target ninja s seen s' := by
  have h_free (t : τ) : s.holder (.mutex t) = none ∨ ∃ seen s', Work target ninja s seen s' := by
    cases h_holder : s.holder (.mutex t) with
    | none => exact .inl rfl
    | some j => exact .inr (h.work_of_mutex h_ends ((h.holds j _).mp h_holder))
  cases h_place : s.place i with
  | outside => exact absurd h_place h_i
  | asked r =>
    cases r with
    | openFile t =>
      obtain h_none | h_work := h_free t
      · exact ⟨_, _, .lock h_place h_none⟩
      · exact h_work
    | read t size offset =>
      cases h_buf : s.buf t with
      | none => exact ⟨_, _, .readNull h_place h_buf⟩
      | some c => exact ⟨_, _, .checks h_place h_buf⟩
    | getattr t =>
      obtain h_none | h_work := h_free t
      · exact ⟨_, _, .getattr h_place h_none⟩
      · exact h_work
    | readLog size offset => exact ⟨_, _, .readLog h_place (readString_call s.log size offset)⟩
    | getattrLog => exact ⟨_, _, .getattrLog h_place⟩
  | checked t size offset =>
    have h_knows := h.knows i
    rw [h_place] at h_knows
    obtain ⟨c, h_buf⟩ := Option.ne_none_iff_exists'.mp h_knows
    obtain h_none | h_work := h_free t
    · exact ⟨_, _, .reads h_place h_none h_buf (readString_call c size offset)⟩
    · exact h_work
  | returning a => exact ⟨_, _, .returns h_place⟩
  | opening t => exact h.work_of_mutex (t := t) h_ends (i := i) (by rw [h_place]; rfl)
  | unlock t a => exact h.work_of_mutex (t := t) h_ends (i := i) (by rw [h_place]; rfl)
  | running | exited | logged | emptied | unlockBoth =>
    exact work_of_global h_ends (i := i) (by rw [h_place]; exact .inr rfl)

/-- **All requests are answered.** If each run of `ninja` ends, then whatever threads have been asked come to
rest, and then all have answered, unless the program has ended. At no moment two runs of `ninja` are under
way. -/
theorem all_answered [Fintype ι] (h_ends : ∀ t, ∃ build, ninja t build) (h : Trace target ninja events s) :
    Descent.ComesToRest (Goes target ninja) s (fun s' => s'.aborted = true ∨ ∀ i, s'.place i = .outside) ∧
      ∀ i j t t', s.place i = .running t → s.place j = .running t' → i = j := by
  refine ⟨.of_rank (fun s s' (h_inv : Inv s) h_goes => ?_) (fun s s' _ h_goes => h_goes.rank_lt)
    (fun s h_inv h_rest => ?_) h.inv, fun i j t t' hi hj => ?_⟩
  · obtain ⟨-, seen, h_work⟩ := h_goes
    exact h_inv.work h_work
  · by_contra h_not
    obtain ⟨h_live, h_place⟩ := not_or.mp h_not
    obtain ⟨i, h_i⟩ := not_forall.mp h_place
    obtain ⟨seen, s', h_work⟩ := h_inv.exists_work h_ends h_i
    exact h_rest s' ⟨Bool.eq_false_iff.mpr h_live, seen, h_work⟩
  · refine h.inv.unique (l := .globalNinja) ?_ ?_
    · rw [hi]
      exact .inr rfl
    · rw [hj]
      exact .inr rfl

theorem all_answered_readDuringBuild : ∃ s,
    Trace (fun _ => targetAll) (fun _ build => build = success) readDuringBuild s ∧
    Descent.ComesToRest (Goes (fun _ => targetAll) fun _ build => build = success) s
      (fun s' => s'.aborted = true ∨ ∀ i, s'.place i = .outside) ∧
    ∀ i j t t', s.place i = .running t → s.place j = .running t' → i = j := by
  obtain ⟨s, h_trace⟩ := exists_trace_readDuringBuild
  exact ⟨s, h_trace, all_answered (fun _ => ⟨success, rfl⟩) h_trace⟩

end GitlstreeFS.Ninjafs.Parallel
