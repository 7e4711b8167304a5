import GitlstreeFS.GitCatFile.Answer
import Mathlib.Data.List.Forall2
import Mathlib.Logic.Relation

/-!
# The session with `git cat-file --batch`

Any number of threads call `Request` on one process. Each takes `m_`, writes its line, reads until it
ends, and gives `m_` back; the server answers the lines in the order in which they come, and a read
delivers any beginning of what is in the pipe. The lists `answers` and `done` record what the server
has answered and how the requests have ended; no part of the program reads them.

The answers and the requests stay in step (`in_step`): the `k`-th request to end got the `k`-th answer,
and between two requests both pipes are empty. The invariant is `Inv`, with one case for each point a
request may have come to.
-/

namespace GitlstreeFS.GitCatFile

variable {ι : Type}

/-! ### Steps -/

/-- A `Request(ref)` of the thread that holds `m_`. -/
structure Running (ι : Type) where
  thread : ι
  ref : Str
  state : State
  deriving DecidableEq

structure Session (ι : Type) where
  running : Option (Running ι)
  /-- What the server has not read yet. -/
  toServer : Str
  /-- What the server has written, and no `Read` has returned yet. -/
  fromServer : Str
  answers : List (Str × Answer)
  done : List (ι × Str × Outcome)

/-- The session before the first request. -/
def Session.initial : Session ι :=
  ⟨none, [], [], [], []⟩

/-- The `Request` is left, and `m_` is given back: it returns or throws. -/
def Outcome.Leaves : Outcome → Prop
  | .returned _ => True
  | .notFound => True
  | .aborted => False
  | .undefined => False

inductive Step : Session ι → Session ι → Prop
  /-- A thread takes `m_`. -/
  | lock (s : Session ι) (i : ι) (ref : Str) (h_free : s.running = none) (h_ref : IsField ref) :
      Step s { s with running := some ⟨i, ref, .start⟩ }
  | write (s : Session ι) (i : ι) (ref : Str) (h : s.running = some ⟨i, ref, .start⟩) :
      Step s { s with
        running := some ⟨i, ref, .header⟩
        toServer := s.toServer ++ (ref ++ [newline]) }
  /-- The server answers a line. -/
  | serve (s : Session ι) (line rest : Str) (a : Answer) (h_line : newline ∉ line)
      (h : s.toServer = line ++ newline :: rest) (h_answer : a.Answers line) :
      Step s { s with
        toServer := rest
        fromServer := s.fromServer ++ a.bytes
        answers := s.answers ++ [(line, a)] }
  /-- A `Read` returns some bytes. -/
  | read (s : Session ι) (i : ι) (ref : Str) (st : State) (n : ℕ) (piece rest : Str)
      (h : s.running = some ⟨i, ref, st⟩) (h_asked : st.asked = some n) (h_piece : piece ≠ [])
      (h_le : piece.length ≤ n) (h_pipe : s.fromServer = piece ++ rest) :
      Step s { s with
        running := some ⟨i, ref, st.receive (GitCatFile.read (some piece))⟩
        fromServer := rest }
  | unlock (s : Session ι) (i : ι) (ref : Str) (o : Outcome)
      (h : s.running = some ⟨i, ref, .ended o⟩) (h_leaves : o.Leaves) :
      Step s { s with
        running := none
        done := s.done ++ [(i, ref, o)] }

/-- The sessions that any interleaving leads to. -/
def Reachable : Session ι → Prop :=
  Relation.ReflTransGen Step .initial

/-! ### The invariant -/

/-- The requests that have ended were answered one by one. -/
def Settled (done : List (ι × Str × Outcome)) (answers : List (Str × Answer)) : Prop :=
  List.Forall₂ (fun d a => d.2.1 = a.1 ∧ d.2.2 = a.2.outcome) done answers

inductive Inv : Session ι → Prop
  | free {answers done} (h : Settled done answers) : Inv ⟨none, [], [], answers, done⟩
  | start {i ref answers done} (h_ref : IsField ref) (h : Settled done answers) :
      Inv ⟨some ⟨i, ref, .start⟩, [], [], answers, done⟩
  | asked {i ref answers done} (h_ref : IsField ref) (h : Settled done answers) :
      Inv ⟨some ⟨i, ref, .header⟩, ref ++ [newline], [], answers, done⟩
  | answered {i ref a answers done} (h_ref : IsField ref) (h_answer : a.Answers ref)
      (h : Settled done answers) :
      Inv ⟨some ⟨i, ref, .header⟩, [], a.bytes, answers ++ [(ref, a)], done⟩
  | reading {i ref a st rest answers done} (h_answer : a.Answers ref) (h : Settled done answers)
      (h_after : a.After rest st) :
      Inv ⟨some ⟨i, ref, st⟩, [], rest, answers ++ [(ref, a)], done⟩

/-- The answer that is being read is the one for the next request to end. -/
theorem Settled.unlock {done : List (ι × Str × Outcome)} {answers : List (Str × Answer)}
    (h : Settled done answers) (i : ι) (ref : Str) (a : Answer) :
    Settled (done ++ [(i, ref, a.outcome)]) (answers ++ [(ref, a)]) :=
  List.rel_append h (.cons ⟨rfl, rfl⟩ .nil)

theorem line_unique {ref line rest : Str} (h_ref : newline ∉ ref) (h_line : newline ∉ line)
    (h : ref ++ [newline] = line ++ newline :: rest) : ref = line ∧ rest = [] := by
  have h_find : find (ref ++ [newline]) newline 0 = find (line ++ newline :: rest) newline 0 := by
    rw [h]
  rw [find_append h_ref, find_append h_line] at h_find
  obtain ⟨h_eq, h_tail⟩ := List.append_inj h (Option.some.inj h_find)
  exact ⟨h_eq, (List.cons.inj h_tail).2.symm⟩

/-- **Every step keeps the session in step.** -/
theorem Inv.step {s s' : Session ι} (h : Inv s) (h_step : Step s s') : Inv s' := by
  cases h_step with
  | lock i ref h_free h_ref =>
    cases h with
    | free h => exact .start h_ref h
    | start | asked | answered | reading => simp at h_free
  | write i ref h_running =>
    cases h with
    | free => simp at h_running
    | start h_ref h =>
      obtain ⟨rfl, rfl, -⟩ := Running.mk.inj (Option.some.inj h_running)
      exact .asked h_ref h
    | asked | answered => simp at h_running
    | reading h_answer h h_after =>
      obtain ⟨rfl, rfl, rfl⟩ := Running.mk.inj (Option.some.inj h_running)
      cases h_after
  | serve line rest a h_line h_pipe h_answer =>
    cases h with
    | free | start | answered | reading => simp at h_pipe
    | asked h_ref h =>
      -- the line that was written is the only one in the pipe
      obtain ⟨rfl, rfl⟩ := line_unique h_ref.2 h_line h_pipe
      exact .answered h_ref h_answer h
  | read i ref st n piece rest h_running h_asked h_piece h_le h_pipe =>
    cases h with
    | free => simp at h_running
    | start h_ref h =>
      obtain ⟨rfl, rfl, rfl⟩ := Running.mk.inj (Option.some.inj h_running)
      simp [State.asked] at h_asked
    | asked h_ref h =>
      -- nothing to read yet
      obtain ⟨rfl, -⟩ := List.append_eq_nil_iff.mp h_pipe.symm
      exact absurd rfl h_piece
    | answered h_ref h_answer h =>
      obtain ⟨rfl, rfl, rfl⟩ := Running.mk.inj (Option.some.inj h_running)
      obtain rfl := Option.some.inj h_asked
      exact .reading h_answer h (Answer.after_header h_answer h_ref h_pipe.symm h_le)
    | reading h_answer h h_after =>
      obtain ⟨rfl, rfl, rfl⟩ := Running.mk.inj (Option.some.inj h_running)
      subst h_pipe
      obtain ⟨response, rfl⟩ := h_after.eq_content h_asked
      exact .reading h_answer h (Answer.after_content h_answer h_after)
  | unlock i ref o h_running h_leaves =>
    cases h with
    | free => simp at h_running
    | start | asked | answered => simp at h_running
    | reading h_answer h h_after =>
      obtain ⟨rfl, rfl, rfl⟩ := Running.mk.inj (Option.some.inj h_running)
      cases h_after with
      | aborted => exact h_leaves.elim
      | ended => exact .free (h.unlock _ _ _)

theorem Reachable.inv {s : Session ι} (h : Reachable s) : Inv s := by
  induction h with
  | refl => exact .free .nil
  | tail _ h_step ih => exact ih.step h_step

/-! ### The requests and the answers -/

/-- The answers that were read, and whether one is being read. -/
theorem Inv.settled {s : Session ι} (h : Inv s) :
    ∃ answers last, s.answers = answers ++ last ∧ Settled s.done answers ∧
      (s.running = none → last = [] ∧ s.toServer = [] ∧ s.fromServer = []) := by
  cases h with
  | free h => exact ⟨_, [], (List.append_nil _).symm, h, fun _ => ⟨rfl, rfl, rfl⟩⟩
  | start _ h | asked _ h => exact ⟨_, [], (List.append_nil _).symm, h, fun h_free => by simp at h_free⟩
  | answered _ _ h | reading _ h _ => exact ⟨_, _, rfl, h, fun h_free => by simp at h_free⟩

/-- **In step.** The `k`-th request that ends, by returning or throwing, was given the `k`-th answer,
which is one to its line, and ends as that answer says. Whenever no request is running, as after each
of these, nothing is left unread in either direction, and there are as many answers as requests. -/
theorem in_step {s : Session ι} (h : Reachable s) :
    (∀ (k : ℕ) i ref o, s.done[k]? = some (i, ref, o) →
        ∃ a : Answer, s.answers[k]? = some (ref, a) ∧ o = a.outcome) ∧
      (s.running = none →
        s.toServer = [] ∧ s.fromServer = [] ∧ s.answers.length = s.done.length) := by
  obtain ⟨answers, last, h_answers, h_settled, h_free⟩ := h.inv.settled
  refine ⟨fun k i ref o h_done => ?_, fun h_none => ?_⟩
  · obtain ⟨h_lt, h_get⟩ := List.getElem?_eq_some_iff.mp h_done
    have h_length := h_settled.length_eq
    have h_lt' : k < answers.length := by omega
    obtain ⟨h_ref, h_o⟩ := h_settled.get h_lt h_lt'
    rw [List.get_eq_getElem, List.get_eq_getElem, h_get] at h_ref h_o
    refine ⟨answers[k].2, ?_, h_o⟩
    rw [h_answers, List.getElem?_append_left h_lt', List.getElem?_eq_getElem h_lt']
    exact congrArg (fun r => some (r, answers[k].2)) h_ref.symm
  · obtain ⟨rfl, h_to, h_from⟩ := h_free h_none
    refine ⟨h_to, h_from, ?_⟩
    rw [h_answers, List.append_nil]
    exact h_settled.length_eq.symm

/-- A request for a blob of one byte, the last of whose answer comes late. -/
theorem in_step_blob : ∃ s : Session Unit, s.done = [((), str "5c7b", .returned (str "x"))] ∧
    s.toServer = [] ∧ s.fromServer = [] ∧ s.answers.length = s.done.length := by
  have h_blob : (Answer.found (str "5c7b") (str "blob") (str "x")).Answers (str "5c7b") :=
    ⟨⟨by decide, by decide⟩, by decide, by decide⟩
  generalize h_a : Answer.found (str "5c7b") (str "blob") (str "x") = a at h_blob
  have h_bytes : a.bytes = str "5c7b blob 1\nx" ++ [newline] := by
    rw [← h_a]
    decide +kernel
  -- what the two reads leave behind
  have h_first : State.header.receive (str "5c7b blob 1\nx")
      = .content ⟨12, 1, str "5c7b", str "blob"⟩ (str "5c7b blob 1\nx") 1 := by
    decide +kernel
  have h_second : (State.content ⟨12, 1, str "5c7b", str "blob"⟩ (str "5c7b blob 1\nx") 1).receive
      [newline] = .ended (.returned (str "x")) := by
    decide +kernel
  have h_locked : Reachable (⟨some ⟨(), str "5c7b", .start⟩, [], [], [], []⟩ : Session Unit) :=
    .single (.lock _ () _ rfl ⟨by decide, by decide⟩)
  have h_written : Reachable
      (⟨some ⟨(), str "5c7b", .header⟩, str "5c7b" ++ [newline], [], [], []⟩ : Session Unit) :=
    h_locked.tail (.write _ () _ rfl)
  have h_served : Reachable
      (⟨some ⟨(), str "5c7b", .header⟩, [], a.bytes, [(str "5c7b", a)], []⟩ : Session Unit) :=
    h_written.tail (.serve _ _ [] a (by decide) rfl h_blob)
  have h_header := h_served.tail (.read _ () _ _ _ (str "5c7b blob 1\nx") [newline] rfl rfl
    (by decide) (by decide) h_bytes)
  rw [read, Option.getD_some, h_first] at h_header
  have h_content := h_header.tail (.read _ () _ _ _ [newline] [] rfl rfl (by decide) (by decide) rfl)
  rw [read, Option.getD_some, h_second] at h_content
  have h_unlocked := h_content.tail (.unlock _ () _ _ rfl trivial)
  exact ⟨_, rfl, (in_step h_unlocked).2 rfl⟩

end GitlstreeFS.GitCatFile
