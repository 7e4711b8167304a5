import Mathlib.Logic.Function.Basic
import Mathlib.Tactic.Common

/-!
# Requests that act at moments

Threads answer requests at the same time. What an observer has of it is a trace: a request begins, it acts
once or a few times on what the threads share, and it returns an answer. `Marked` says that the trace is such:
each thread goes through its requests one after the other, and each request acts between its beginning and
its return, as `Performs` says for its answer.

If the actions in the order of the trace are those of a sequential object, then the threads could as well
have waited for each other.
-/

namespace Effect

variable {ι ρ ε α : Type*}

/-- What is seen of the threads `ι`. -/
inductive Event (ι ρ ε α : Type*) where
  | begins (i : ι) (r : ρ)
  | acts (i : ι) (e : ε)
  | returns (i : ι) (a : α)

/-- The action of an event. -/
def Event.action : Event ι ρ ε α → Option ε
  | .acts _ e => some e
  | _ => none

/-- The actions of a trace. -/
def actions (events : List (Event ι ρ ε α)) : List ε :=
  events.filterMap Event.action

/-- What a thread is at: a request, with the actions there have been. -/
abbrev Status (ρ ε : Type*) := Option (ρ × List ε)

/-- The requests act as they may, and only while they are answered. -/
inductive Marked [DecidableEq ι] (Performs : ρ → List ε → α → Prop) :
    List (Event ι ρ ε α) → (ι → Status ρ ε) → Prop
  | nil : Marked Performs [] fun _ => none
  | begins {events : List (Event ι ρ ε α)} {status : ι → Status ρ ε} {i : ι} {r : ρ}
      (h : Marked Performs events status) (h_i : status i = none) :
      Marked Performs (events ++ [.begins i r]) (Function.update status i (some (r, [])))
  | acts {events : List (Event ι ρ ε α)} {status : ι → Status ρ ε} {i : ι} {r : ρ} {done : List ε} {e : ε}
      (h : Marked Performs events status) (h_i : status i = some (r, done)) :
      Marked Performs (events ++ [.acts i e]) (Function.update status i (some (r, done ++ [e])))
  | returns {events : List (Event ι ρ ε α)} {status : ι → Status ρ ε} {i : ι} {r : ρ} {done : List ε} {a : α}
      (h : Marked Performs events status) (h_i : status i = some (r, done)) (h_performs : Performs r done a) :
      Marked Performs (events ++ [.returns i a]) (Function.update status i none)

@[simp] theorem actions_nil : actions ([] : List (Event ι ρ ε α)) = [] := rfl

theorem actions_append (events events' : List (Event ι ρ ε α)) :
    actions (events ++ events') = actions events ++ actions events' :=
  List.filterMap_append

@[simp] theorem actions_acts (i : ι) (e : ε) : actions ([.acts i e] : List (Event ι ρ ε α)) = [e] := rfl

@[simp] theorem actions_begins (i : ι) (r : ρ) : actions ([.begins i r] : List (Event ι ρ ε α)) = [] := rfl

@[simp] theorem actions_returns (i : ι) (a : α) : actions ([.returns i a] : List (Event ι ρ ε α)) = [] := rfl

end Effect
