import Mathlib.Algebra.BigOperators.Group.Finset.Piecewise
import Mathlib.Data.Fintype.Card
import Mathlib.Logic.Relation
import Mathlib.Tactic.Common

/-!
# `concurrency_limit.cc`

The objects of `ScopedConcurrencyLimit` share a mutex, a condition variable, and the set `messages_` of the
addresses of their messages. A constructor inserts its own, and waits before if there are more than
`kLimit`; a destructor erases it, and notifies one of those that wait.

A thread is at a `Place` of the code. While it holds the mutex no other thread sees what it does, so that
the body of a critical section is one step; so is the wait, which gives the mutex back as the thread falls
asleep. A thread that sleeps may wake up at any time.

Two invariants are shown for all runs, of any number of threads: there never are more than `kLimit + 1`
messages (`card_messages_le`), and none sleeps unless enough is under way to wake it (`wakeup`).
-/

namespace GitlstreeFS.ConcurrencyLimit

open Relation

/-- `kLimit`. -/
def kLimit : ℕ := 6

/-! ### States -/

/-- Where a thread is. `m` is the object, or the address of its message. -/
inductive Place (μ : Type) where
  | outside
  /-- The constructor, before the mutex -/
  | lock (m : μ)
  /-- before the condition, with the mutex -/
  | check (m : μ)
  /-- in `cv_.wait` -/
  | asleep (m : μ)
  /-- awake again, before the mutex -/
  | woken (m : μ)
  /-- before the predicate, with the mutex -/
  | recheck (m : μ)
  /-- and behind `insert`, with the mutex. -/
  | leave (m : μ)
  /-- The destructor, before the mutex -/
  | dtorLock (m : μ)
  /-- before `erase`, with the mutex -/
  | erase (m : μ)
  /-- behind it, with the mutex -/
  | unlock
  /-- and before `notify_one`. -/
  | notify
  deriving DecidableEq, Repr

/-- The object that a constructor has not inserted yet. -/
def Place.coming {μ : Type} : Place μ → Option μ
  | .lock m | .check m | .asleep m | .woken m | .recheck m => some m
  | _ => none

/-- The object that a constructor has inserted, or a destructor has not erased yet. -/
def Place.present {μ : Type} : Place μ → Option μ
  | .leave m | .dtorLock m | .erase m => some m
  | _ => none

/-- The object that the thread is busy with. -/
def Place.object {μ : Type} (x : Place μ) : Option μ :=
  x.coming <|> x.present

/-- A thread that sleeps. -/
def Place.isAsleep {μ : Type} : Place μ → Bool
  | .asleep _ => true
  | _ => false

/-- A thread that has been woken and has not evaluated the predicate yet. -/
def Place.isWoken {μ : Type} : Place μ → Bool
  | .woken _ | .recheck _ => true
  | _ => false

/-- A destructor that is still going to notify. -/
def Place.isPending {μ : Type} : Place μ → Bool
  | .unlock | .notify => true
  | _ => false

/-- The state that `ι` threads share, and where they are. -/
structure State (ι μ : Type) where
  /-- The thread that holds `m_`. -/
  holder : Option ι
  /-- `messages_`. -/
  messages : Finset μ
  /-- The objects that are constructed, and whose destruction has not begun. -/
  objects : Finset μ
  place : ι → Place μ

namespace State

variable {ι μ : Type} [DecidableEq ι]

/-- No object has been constructed. -/
def initial : State ι μ :=
  ⟨none, ∅, ∅, fun _ => .outside⟩

/-- The thread goes on. -/
def goto (s : State ι μ) (i : ι) (x : Place μ) : State ι μ :=
  { s with place := Function.update s.place i x }

/-- The thread goes on with the mutex. -/
def acquire (s : State ι μ) (i : ι) (x : Place μ) : State ι μ :=
  { s.goto i x with holder := some i }

/-- The thread goes on without the mutex. -/
def release (s : State ι μ) (i : ι) (x : Place μ) : State ι μ :=
  { s.goto i x with holder := none }

end State

/-! ### Steps -/

section Steps

variable {ι μ : Type} [DecidableEq ι] [DecidableEq μ]

open State

/-- A step of some thread. -/
inductive Step : State ι μ → State ι μ → Prop
  /-- An object is made where there is none. -/
  | construct {s : State ι μ} {i : ι} {m : μ} (h : s.place i = .outside) (h_new : m ∉ s.objects)
      (h_other : ∀ j, (s.place j).object ≠ some m) : Step s (s.goto i (.lock m))
  | lock {s : State ι μ} {i : ι} {m : μ} (h : s.place i = .lock m) (h_free : s.holder = none) :
      Step s (s.acquire i (.check m))
  | insert {s : State ι μ} {i : ι} {m : μ} (h : s.place i = .check m) (h_size : ¬ kLimit < s.messages.card) :
      Step s { s.goto i (.leave m) with messages := insert m s.messages }
  | sleep {s : State ι μ} {i : ι} {m : μ} (h : s.place i = .check m) (h_size : kLimit < s.messages.card) :
      Step s (s.release i (.asleep m))
  /-- A wake-up without a reason. -/
  | wake {s : State ι μ} {i : ι} {m : μ} (h : s.place i = .asleep m) : Step s (s.goto i (.woken m))
  | relock {s : State ι μ} {i : ι} {m : μ} (h : s.place i = .woken m) (h_free : s.holder = none) :
      Step s (s.acquire i (.recheck m))
  | insertAfterWait {s : State ι μ} {i : ι} {m : μ} (h : s.place i = .recheck m)
      (h_size : s.messages.card ≤ kLimit) :
      Step s { s.goto i (.leave m) with messages := insert m s.messages }
  | sleepAgain {s : State ι μ} {i : ι} {m : μ} (h : s.place i = .recheck m)
      (h_size : ¬ s.messages.card ≤ kLimit) : Step s (s.release i (.asleep m))
  /-- The constructor returns. -/
  | leave {s : State ι μ} {i : ι} {m : μ} (h : s.place i = .leave m) :
      Step s { s.release i .outside with objects := insert m s.objects }
  | destroy {s : State ι μ} {i : ι} {m : μ} (h : s.place i = .outside) (h_object : m ∈ s.objects) :
      Step s { s.goto i (.dtorLock m) with objects := s.objects.erase m }
  | dtorLock {s : State ι μ} {i : ι} {m : μ} (h : s.place i = .dtorLock m) (h_free : s.holder = none) :
      Step s (s.acquire i (.erase m))
  | erase {s : State ι μ} {i : ι} {m : μ} (h : s.place i = .erase m) :
      Step s { s.goto i .unlock with messages := s.messages.erase m }
  | unlock {s : State ι μ} {i : ι} (h : s.place i = .unlock) : Step s (s.release i .notify)
  /-- `notify_one` wakes one of those that sleep -/
  | notify {s : State ι μ} {i j : ι} {m : μ} (h : s.place i = .notify) (h_asleep : s.place j = .asleep m) :
      Step s ((s.goto j (.woken m)).goto i .outside)
  /-- if there is one. -/
  | notifyNone {s : State ι μ} {i : ι} (h : s.place i = .notify)
      (h_none : ∀ j, (s.place j).isAsleep = false) : Step s (s.goto i .outside)

/-- The states of the runs. -/
def Reachable (s : State ι μ) : Prop :=
  ReflTransGen Step State.initial s

end Steps

/-! ### Objects and messages -/

section Objects

variable {ι μ : Type} [DecidableEq ι] [DecidableEq μ] {s s' : State ι μ}

/-- Each object is at one place, and its message is there from `insert` to `erase`. -/
structure Kept (s : State ι μ) : Prop where
  coming : ∀ i m, (s.place i).coming = some m → m ∉ s.messages
  present : ∀ i m, (s.place i).present = some m → m ∈ s.messages ∧ m ∉ s.objects
  objects : s.objects ⊆ s.messages
  messages : ∀ m ∈ s.messages, m ∈ s.objects ∨ ∃ i, (s.place i).present = some m
  apart : ∀ i j m, i ≠ j → (s.place i).object = some m → (s.place j).object ≠ some m

omit [DecidableEq ι] [DecidableEq μ] in
theorem kept_initial : Kept (State.initial : State ι μ) := by
  refine ⟨?_, ?_, subset_rfl, ?_, ?_⟩
  · rintro i m ⟨⟩
  · rintro i m ⟨⟩
  · exact fun m hm => absurd hm (Finset.notMem_empty m)
  · rintro i j m - ⟨⟩

omit [DecidableEq ι] [DecidableEq μ] in
theorem object_of_coming {x : Place μ} {m : μ} (h : x.coming = some m) : x.object = some m := by
  rw [Place.object, h]
  rfl

omit [DecidableEq ι] [DecidableEq μ] in
theorem object_of_present {x : Place μ} {m : μ} (h : x.present = some m) : x.object = some m := by
  cases x <;> first | exact h | cases h

variable {i : ι} {x : Place μ}

omit [DecidableEq μ] in
@[simp] theorem goto_self (s : State ι μ) (i : ι) (x : Place μ) : (s.goto i x).place i = x :=
  Function.update_self _ _ _

omit [DecidableEq μ] in
theorem place_of_ne {j : ι} (h_place : s'.place = Function.update s.place i x) (h_ne : j ≠ i) :
    s'.place j = s.place j := by
  rw [h_place, Function.update_of_ne h_ne]

omit [DecidableEq μ] in
/-- A message that is not that of the thread is that of an object or of another thread. -/
theorem Kept.still (h : Kept s) (h_place : s'.place = Function.update s.place i x) {m : μ}
    (hm : m ∈ s.messages) (h_i : (s.place i).present ≠ some m) :
    m ∈ s.objects ∨ ∃ j, (s'.place j).present = some m := by
  obtain h_mem | ⟨j, h_j⟩ := h.messages m hm
  · exact .inl h_mem
  · have h_ne : j ≠ i := by
      rintro rfl
      exact h_i h_j
    exact .inr ⟨j, by rw [place_of_ne h_place h_ne, h_j]⟩

omit [DecidableEq μ] in
/-- One thread goes on, and no other object comes or goes. -/
theorem Kept.goes (h : Kept s) (h_place : s'.place = Function.update s.place i x)
    (h_apart : ∀ m j, x.object = some m → j ≠ i → (s.place j).object ≠ some m)
    (h_coming : ∀ m, x.coming = some m → m ∉ s'.messages)
    (h_present : ∀ m, x.present = some m → m ∈ s'.messages ∧ m ∉ s'.objects)
    (h_objects : s'.objects ⊆ s'.messages)
    (h_back : ∀ m ∈ s'.messages, m ∈ s'.objects ∨ ∃ j, (s'.place j).present = some m)
    (h_messages : ∀ m j, j ≠ i → (s.place j).object = some m → (m ∈ s'.messages ↔ m ∈ s.messages))
    (h_same : ∀ m j, j ≠ i → (s.place j).object = some m → (m ∈ s'.objects ↔ m ∈ s.objects)) :
    Kept s' := by
  have h_self : s'.place i = x := by
    rw [h_place, Function.update_self]
  have h_other (j : ι) (h_ne : j ≠ i) : s'.place j = s.place j := place_of_ne h_place h_ne
  refine ⟨fun j m h_j => ?_, fun j m h_j => ?_, h_objects, h_back, fun j k m h_ne h_j => ?_⟩
  · -- an object that is coming is not there yet
    by_cases h_eq : j = i
    · subst h_eq
      rw [h_self] at h_j
      exact h_coming m h_j
    · rw [h_other j h_eq] at h_j
      rw [h_messages m j h_eq (object_of_coming h_j)]
      exact h.coming j m h_j
  · -- an object that a thread is at is there, and not counted as free
    by_cases h_eq : j = i
    · subst h_eq
      rw [h_self] at h_j
      exact h_present m h_j
    · rw [h_other j h_eq] at h_j
      rw [h_messages m j h_eq (object_of_present h_j), h_same m j h_eq (object_of_present h_j)]
      exact h.present j m h_j
  · -- no two threads are at one object; only a pair with `i` in it is new
    by_cases h_eq : j = i
    · subst h_eq
      rw [h_self] at h_j
      rw [h_other k (Ne.symm h_ne)]
      exact h_apart m k h_j (Ne.symm h_ne)
    · rw [h_other j h_eq] at h_j
      by_cases h_k : k = i
      · subst h_k
        rw [h_self]
        exact fun h_x => h_apart m j h_x h_eq h_j
      · rw [h_other k h_k]
        exact h.apart j k m h_ne h_j

omit [DecidableEq μ] in
/-- The thread keeps its object, and the sets stay. -/
theorem Kept.moves (h : Kept s) (h_place : s'.place = Function.update s.place i x)
    (h_messages : s'.messages = s.messages) (h_objects : s'.objects = s.objects)
    (h_coming : x.coming = (s.place i).coming) (h_present : x.present = (s.place i).present) :
    Kept s' := by
  have h_all (j : ι) : (s'.place j).present = (s.place j).present := by
    rw [h_place]
    by_cases h_eq : j = i
    · rw [h_eq, Function.update_self, h_present]
    · rw [Function.update_of_ne h_eq]
  refine h.goes h_place (fun m j h_x h_ne => ?_) (fun m h_x => ?_) (fun m h_x => ?_) ?_
    (fun m hm => ?_) (fun m j _ _ => by rw [h_messages]) fun m j _ _ => by rw [h_objects]
  · refine h.apart i j m (Ne.symm h_ne) ?_
    rwa [Place.object, ← h_coming, ← h_present]
  · rw [h_messages]
    exact h.coming i m (h_coming ▸ h_x)
  · rw [h_messages, h_objects]
    exact h.present i m (h_present ▸ h_x)
  · rw [h_messages, h_objects]
    exact h.objects
  · rw [h_messages] at hm
    rw [h_objects]
    obtain h_mem | ⟨j, h_j⟩ := h.messages m hm
    · exact .inl h_mem
    · exact .inr ⟨j, by rw [h_all, h_j]⟩

/-- A constructor has inserted its message. -/
theorem Kept.inserted {m : μ} (h : Kept s) (h_place : s'.place = Function.update s.place i (.leave m))
    (h_messages : s'.messages = insert m s.messages) (h_objects : s'.objects = s.objects)
    (h_coming : (s.place i).coming = some m) (h_present : (s.place i).present = none) : Kept s' := by
  have h_new := h.coming i m h_coming
  have h_apart (m' : μ) (j : ι) (h_x : (Place.leave m).object = some m') (h_ne : j ≠ i) :
      (s.place j).object ≠ some m' := by
    obtain rfl := Option.some.inj h_x
    exact h.apart i j m (Ne.symm h_ne) (object_of_coming h_coming)
  refine h.goes h_place h_apart (fun m' h_x => by cases h_x) (fun m' h_x => ?_) ?_ (fun m' hm => ?_)
    (fun m' j h_ne h_j => ?_) fun m' j _ _ => by rw [h_objects]
  · obtain rfl := Option.some.inj h_x
    rw [h_messages, h_objects]
    exact ⟨Finset.mem_insert_self _ _, fun h_mem => h_new (h.objects h_mem)⟩
  · rw [h_messages, h_objects]
    exact h.objects.trans (Finset.subset_insert _ _)
  · rw [h_messages, Finset.mem_insert] at hm
    rw [h_objects]
    obtain rfl | hm := hm
    · exact .inr ⟨i, by rw [h_place, Function.update_self]; rfl⟩
    · exact h.still h_place hm (by rw [h_present]; exact (Option.some_ne_none m').symm)
  · have h_ne' : m' ≠ m := fun h_eq => h_apart m j rfl h_ne (h_eq ▸ h_j)
    rw [h_messages, Finset.mem_insert, or_iff_right h_ne']

omit [DecidableEq μ] in
theorem Kept.constructed {m : μ} (h : Kept s) (h_i : s.place i = .outside) (h_new : m ∉ s.objects)
    (h_other : ∀ j, (s.place j).object ≠ some m) : Kept (s.goto i (.lock m)) := by
  have h_message : m ∉ s.messages := by
    intro hm
    obtain h_mem | ⟨j, h_j⟩ := h.messages m hm
    · exact h_new h_mem
    · exact h_other j (object_of_present h_j)
  refine h.goes rfl (fun m' j h_x _ => ?_) (fun m' h_x => ?_) (fun m' h_x => by cases h_x) h.objects
    (fun m' hm => h.still rfl hm (by rw [h_i]; exact (Option.some_ne_none m').symm)) (fun _ _ _ _ => Iff.rfl)
    fun _ _ _ _ => Iff.rfl
  · obtain rfl := Option.some.inj h_x
    exact h_other j
  · obtain rfl := Option.some.inj h_x
    exact h_message

/-- The object has been constructed. -/
theorem Kept.left {m : μ} (h : Kept s) (h_place : s'.place = Function.update s.place i .outside)
    (h_messages : s'.messages = s.messages) (h_objects : s'.objects = insert m s.objects)
    (h_i : s.place i = .leave m) : Kept s' := by
  have h_present : (s.place i).present = some m := by
    rw [h_i]
    rfl
  refine h.goes h_place (fun m' j h_x => by cases h_x) (fun m' h_x => by cases h_x)
    (fun m' h_x => by cases h_x) ?_ (fun m' hm => ?_) (fun _ _ _ _ => by rw [h_messages])
    fun m' j h_ne h_j => ?_
  · rw [h_messages, h_objects]
    exact Finset.insert_subset (h.present i m h_present).1 h.objects
  · rw [h_messages] at hm
    rw [h_objects]
    by_cases h_eq : m' = m
    · exact .inl (h_eq ▸ Finset.mem_insert_self _ _)
    · have h_ne : (s.place i).present ≠ some m' := by
        rw [h_present]
        exact fun h_some => h_eq (Option.some.inj h_some).symm
      obtain h_mem | h_other := h.still h_place hm h_ne
      · exact .inl (Finset.mem_insert_of_mem h_mem)
      · exact .inr h_other
  · have h_ne' : m' ≠ m := by
      rintro rfl
      exact h.apart i j m' (Ne.symm h_ne) (object_of_present h_present) h_j
    rw [h_objects, Finset.mem_insert, or_iff_right h_ne']

/-- The destruction of the object has begun. -/
theorem Kept.destroyed {m : μ} (h : Kept s) (h_place : s'.place = Function.update s.place i (.dtorLock m))
    (h_messages : s'.messages = s.messages) (h_objects : s'.objects = s.objects.erase m)
    (h_i : s.place i = .outside) (h_object : m ∈ s.objects) : Kept s' := by
  -- what a thread is at is either on its way or there, and `m` is free
  have h_nobody (j : ι) : (s.place j).object ≠ some m := by
    intro h_j
    cases h_c : (s.place j).coming with
    | some m' =>
      have h_eq := object_of_coming h_c
      rw [h_j] at h_eq
      obtain rfl := Option.some.inj h_eq
      exact h.coming j m h_c (h.objects h_object)
    | none =>
      rw [Place.object, h_c] at h_j
      exact (h.present j m h_j).2 h_object
  refine h.goes h_place (fun m' j h_x _ => ?_) (fun m' h_x => by cases h_x) (fun m' h_x => ?_) ?_
    (fun m' hm => ?_) (fun _ _ _ _ => by rw [h_messages]) fun m' j h_ne h_j => ?_
  · obtain rfl := Option.some.inj h_x
    exact h_nobody j
  · obtain rfl := Option.some.inj h_x
    rw [h_messages, h_objects]
    exact ⟨h.objects h_object, Finset.notMem_erase _ _⟩
  · rw [h_messages, h_objects]
    exact (Finset.erase_subset _ _).trans h.objects
  · rw [h_messages] at hm
    rw [h_objects]
    -- the message of `m` is still there, and it is this thread that is at it now
    by_cases h_eq : m' = m
    · exact .inr ⟨i, by rw [h_place, Function.update_self, h_eq]; rfl⟩
    · have h_ne : (s.place i).present ≠ some m' := by
        rw [h_i]
        exact (Option.some_ne_none m').symm
      obtain h_mem | h_other := h.still h_place hm h_ne
      · exact .inl (Finset.mem_erase_of_ne_of_mem h_eq h_mem)
      · exact .inr h_other
  · have h_ne' : m' ≠ m := by
      rintro rfl
      exact h_nobody j h_j
    rw [h_objects, Finset.mem_erase, and_iff_right h_ne']

/-- The message has been erased. -/
theorem Kept.erased {m : μ} (h : Kept s) (h_i : s.place i = .erase m) :
    Kept { s.goto i .unlock with messages := s.messages.erase m } := by
  have h_present : (s.place i).present = some m := by
    rw [h_i]
    rfl
  have h_object := (h.present i m h_present).2
  refine h.goes rfl (fun m' j h_x => by cases h_x) (fun m' h_x => by cases h_x)
    (fun m' h_x => by cases h_x) (fun m' hm => ?_) (fun m' hm => ?_) (fun m' j h_ne h_j => ?_)
    fun _ _ _ _ => Iff.rfl
  · exact Finset.mem_erase_of_ne_of_mem (fun h_eq => h_object (h_eq ▸ hm)) (h.objects hm)
  · obtain ⟨h_ne, hm⟩ := Finset.mem_erase.mp hm
    refine h.still rfl hm ?_
    rw [h_present]
    exact fun h_some => h_ne (Option.some.inj h_some).symm
  · have h_ne' : m' ≠ m := by
      rintro rfl
      exact h.apart i j m' (Ne.symm h_ne) (object_of_present h_present) h_j
    rw [Finset.mem_erase, and_iff_right h_ne']

/-- **What is constructed has a message, and nothing else has, but what comes or goes.** -/
theorem Kept.step (h : Kept s) (h_step : Step s s') : Kept s' := by
  cases h_step with
  | construct h_i h_new h_other => exact h.constructed h_i h_new h_other
  | lock h_i _ => exact h.moves rfl rfl rfl (by rw [h_i]; rfl) (by rw [h_i]; rfl)
  | insert h_i _ => exact h.inserted rfl rfl rfl (by rw [h_i]; rfl) (by rw [h_i]; rfl)
  | sleep h_i _ => exact h.moves rfl rfl rfl (by rw [h_i]; rfl) (by rw [h_i]; rfl)
  | wake h_i => exact h.moves rfl rfl rfl (by rw [h_i]; rfl) (by rw [h_i]; rfl)
  | relock h_i _ => exact h.moves rfl rfl rfl (by rw [h_i]; rfl) (by rw [h_i]; rfl)
  | insertAfterWait h_i _ => exact h.inserted rfl rfl rfl (by rw [h_i]; rfl) (by rw [h_i]; rfl)
  | sleepAgain h_i _ => exact h.moves rfl rfl rfl (by rw [h_i]; rfl) (by rw [h_i]; rfl)
  | leave h_i => exact h.left rfl rfl rfl h_i
  | destroy h_i h_object => exact h.destroyed rfl rfl rfl h_i h_object
  | dtorLock h_i _ => exact h.moves rfl rfl rfl (by rw [h_i]; rfl) (by rw [h_i]; rfl)
  | erase h_i => exact h.erased h_i
  | unlock h_i => exact h.moves rfl rfl rfl (by rw [h_i]; rfl) (by rw [h_i]; rfl)
  | @notify i j m h_i h_asleep =>
    have h_ne : i ≠ j := by
      rintro rfl
      rw [h_i] at h_asleep
      cases h_asleep
    have h_woken : Kept (s.goto j (.woken m)) :=
      h.moves rfl rfl rfl (by rw [h_asleep]; rfl) (by rw [h_asleep]; rfl)
    have h_place : (s.goto j (.woken m)).place i = .notify := (place_of_ne rfl h_ne).trans h_i
    exact h_woken.moves rfl rfl rfl (by rw [h_place]; rfl) (by rw [h_place]; rfl)
  | notifyNone h_i _ => exact h.moves rfl rfl rfl (by rw [h_i]; rfl) (by rw [h_i]; rfl)

theorem Reachable.kept (h : Reachable s) : Kept s := by
  induction h with
  | refl => exact kept_initial
  | tail _ h_step ih => exact ih.step h_step

omit [DecidableEq ι] in
/-- A new message makes one more. -/
theorem Kept.card_insert (h : Kept s) {m : μ} (h_coming : (s.place i).coming = some m) :
    (insert m s.messages).card = s.messages.card + 1 :=
  Finset.card_insert_of_notMem (h.coming i m h_coming)

end Objects

/-! ### The limit -/

section Limit

variable {ι μ : Type} [DecidableEq ι] [DecidableEq μ] {s s' : State ι μ}

/-- **There are `kLimit + 1` messages at most.** -/
theorem card_messages_le (h : Reachable s) : s.messages.card ≤ kLimit + 1 := by
  induction h with
  | refl => exact Nat.zero_le _
  | tail _ h_step ih =>
    cases h_step with
    | @insert i m _ h_size =>
      exact (Finset.card_insert_le m _).trans (Nat.succ_le_succ (Nat.le_of_not_lt h_size))
    | @insertAfterWait i m _ h_size =>
      exact (Finset.card_insert_le m _).trans (Nat.succ_le_succ h_size)
    | erase _ => exact (Finset.card_erase_le).trans ih
    | _ => exact ih

/-- A constructor compares while there are `kLimit` messages. Its own is going to be one too many. -/
def AtLimit (s : State ι μ) : Prop :=
  s.messages.card = kLimit ∧ ∃ i m, s.place i = .check m ∨ s.place i = .recheck m

/-- A step from a state where none does. -/
def Below (s s' : State ι μ) : Prop :=
  Step s s' ∧ ¬ AtLimit s

theorem Below.reachable (h : ReflTransGen Below State.initial s) : Reachable s :=
  ReflTransGen.mono (fun _ _ h_step => h_step.1) _ _ h

/-- No message is one too many, unless a constructor has found `kLimit` of them. -/
theorem Below.card_messages_le (h : ReflTransGen Below State.initial s) : s.messages.card ≤ kLimit := by
  induction h with
  | refl => exact Nat.zero_le _
  | @tail s₁ s₂ _ h_step ih =>
    obtain ⟨h_step, h_not⟩ := h_step
    have h_lt (h_at : ∃ i m, s₁.place i = .check m ∨ s₁.place i = .recheck m) :
        s₁.messages.card < kLimit :=
      lt_of_le_of_ne ih fun h_eq => h_not ⟨h_eq, h_at⟩
    cases h_step with
    | @insert i m h_i _ => exact (Finset.card_insert_le m _).trans (h_lt ⟨i, m, .inl h_i⟩)
    | @insertAfterWait i m h_i _ => exact (Finset.card_insert_le m _).trans (h_lt ⟨i, m, .inr h_i⟩)
    | erase _ => exact (Finset.card_erase_le).trans ih
    | _ => exact ih

/-- **As long as no constructor compares `size() > kLimit` while there are exactly `kLimit` messages, there
are no more than `kLimit` objects.** -/
theorem objects_le_kLimit (h : ReflTransGen Below State.initial s) : s.objects.card ≤ kLimit := by
  have h_sub := (Below.reachable h).kept.objects
  exact (Finset.card_le_card h_sub).trans (Below.card_messages_le h)

/-- An object is constructed while nothing else happens. -/
theorem letIn {R : State ι μ → State ι μ → Prop} (i : ι) {m : μ} (h_free : s.holder = none)
    (h_outside : ∀ j, s.place j = .outside) (h_new : m ∉ s.objects) (h_size : s.messages.card ≤ kLimit)
    (h_R : ∀ a b, Step a b → a.messages ⊆ insert m s.messages → R a b) :
    ∃ s', ReflTransGen R s s' ∧ s'.holder = none ∧ (∀ j, s'.place j = .outside) ∧
      s'.messages = insert m s.messages ∧ s'.objects = insert m s.objects := by
  -- from each of these states the thread has only one way to go
  let s₁ : State ι μ := s.goto i (.lock m)
  let s₂ : State ι μ := s₁.acquire i (.check m)
  let s₃ : State ι μ := { s₂.goto i (.leave m) with messages := insert m s.messages }
  let s₄ : State ι μ := { s₃.release i .outside with objects := insert m s.objects }
  have h_place (j : ι) : s₄.place j = .outside := by
    change Function.update (Function.update (Function.update (Function.update s.place i _) i _) i _) i _ j = _
    by_cases h_eq : j = i
    · rw [h_eq, Function.update_self]
    · simp only [Function.update_of_ne h_eq, h_outside]
  refine ⟨s₄, ?_, rfl, h_place, rfl, rfl⟩
  have h_sub : s.messages ⊆ insert m s.messages := Finset.subset_insert _ _
  have h₁ : R s s₁ := by
    refine h_R _ _ (.construct (h_outside i) h_new fun j => ?_) h_sub
    rw [h_outside j]
    exact (Option.some_ne_none m).symm
  have h₂ : R s₁ s₂ := h_R _ _ (.lock (goto_self _ _ _) h_free) h_sub
  have h₃ : R s₂ s₃ := h_R _ _ (.insert (goto_self _ _ _) (Nat.not_lt_of_le h_size)) h_sub
  have h₄ : R s₃ s₄ := h_R _ _ (.leave (goto_self _ _ _)) subset_rfl
  exact .head h₁ (.head h₂ (.head h₃ (.single h₄)))

/-- Threads construct one object after the other. -/
theorem letIn_range {R : State ι ℕ → State ι ℕ → Prop} (thread : ℕ → ι) (n : ℕ)
    (h_le : n ≤ kLimit + 1) (h_R : ∀ a b, Step a b → a.messages.card ≤ n → R a b) :
    ∃ s, ReflTransGen R State.initial s ∧ s.holder = none ∧ (∀ j, s.place j = .outside) ∧
      s.messages = Finset.range n ∧ s.objects = Finset.range n := by
  induction n with
  | zero => exact ⟨State.initial, .refl, rfl, fun _ => rfl, rfl, rfl⟩
  | succ n ih =>
    obtain ⟨s, h_run, h_free, h_outside, h_messages, h_objects⟩ :=
      ih (Nat.le_of_succ_le h_le) fun a b h h_card => h_R a b h (Nat.le_succ_of_le h_card)
    have h_new : n ∉ s.objects := by
      rw [h_objects]
      exact Finset.notMem_range_self
    have h_size : s.messages.card ≤ kLimit := by
      rw [h_messages, Finset.card_range]
      exact Nat.le_of_succ_le_succ h_le
    have h_next : insert n s.messages = Finset.range (n + 1) := by
      rw [h_messages, Finset.range_add_one]
    obtain ⟨s', h_run', h_free', h_outside', h_messages', h_objects'⟩ :=
      letIn (R := R) (thread n) h_free h_outside h_new h_size fun a b h h_sub => by
        refine h_R a b h ((Finset.card_le_card h_sub).trans_eq ?_)
        rw [h_next, Finset.card_range]
    refine ⟨s', h_run.trans h_run', h_free', h_outside', ?_, ?_⟩
    · rw [h_messages', h_next]
    · rw [h_objects', h_objects, Finset.range_add_one]

/-- Five threads have constructed an object each. -/
theorem objects_le_kLimit_five : ∃ s : State (Fin 5) ℕ, s.objects.card = 5 ∧ s.objects.card ≤ kLimit := by
  have h_R (a b : State (Fin 5) ℕ) (h : Step a b) (h_card : a.messages.card ≤ 5) : Below a b := by
    refine ⟨h, fun h_at => ?_⟩
    have h_eq : a.messages.card = 6 := h_at.1
    omega
  obtain ⟨s, h_run, -, -, -, h_objects⟩ := letIn_range (Fin.ofNat 5) 5 (by decide) h_R
  exact ⟨s, by rw [h_objects, Finset.card_range], objects_le_kLimit h_run⟩

/-- The seventh of seven threads does not wait. -/
theorem seven_objects : ¬ ∀ s : State (Fin 7) ℕ, Reachable s → s.objects.card ≤ kLimit := by
  intro h
  obtain ⟨s, h_run, -, -, -, h_objects⟩ :=
    letIn_range (Fin.ofNat 7) 7 le_rfl fun a b (h_step : Step a b) _ => h_step
  have h_le := h s h_run
  rw [h_objects, Finset.card_range] at h_le
  exact absurd h_le (by decide)

end Limit

/-! ### Wake-ups -/

section Wakeups

variable {ι μ : Type} [Fintype ι]

/-- The number of threads at such places. -/
def State.count (s : State ι μ) (P : Place μ → Bool) : ℕ :=
  (Finset.univ.filter fun i => P (s.place i)).card

/-- What is under way to wake a thread: the messages, each of which is erased some day, the destructors that
are going to notify, and the threads that are awake already. -/
def State.underWay (s : State ι μ) : ℕ :=
  s.messages.card + s.count Place.isPending + s.count Place.isWoken

variable [DecidableEq ι] [DecidableEq μ] {s s' : State ι μ}

omit [DecidableEq μ] in
/-- One thread goes from one place to another. -/
theorem count_update {i : ι} {x : Place μ} (h_place : s'.place = Function.update s.place i x)
    (P : Place μ → Bool) : s'.count P + (P (s.place i)).toNat = s.count P + (P x).toNat := by
  have h_sum (a : State ι μ) :
      a.count P = (P (a.place i)).toNat + ∑ j ∈ {i}ᶜ, (P (a.place j)).toNat := by
    rw [State.count, Finset.card_filter,
      ← Fintype.sum_eq_add_sum_compl i fun j => (P (a.place j)).toNat]
    exact Finset.sum_congr rfl fun j _ => by cases P (a.place j) <;> rfl
  have h_rest : ∑ j ∈ {i}ᶜ, (P (s'.place j)).toNat = ∑ j ∈ {i}ᶜ, (P (s.place j)).toNat := by
    refine Finset.sum_congr rfl fun j h_j => ?_
    rw [Finset.mem_compl, Finset.mem_singleton] at h_j
    rw [h_place, Function.update_of_ne h_j]
  rw [h_sum s', h_sum s, h_rest, h_place, Function.update_self]
  omega

omit [Fintype ι] [DecidableEq μ] in
/-- A thread that goes to a place where it does not sleep is none of those that sleep. -/
theorem asleep_before {i : ι} {x : Place μ} (h_place : s'.place = Function.update s.place i x)
    (h_x : x.isAsleep = false) (h : ∃ j, (s'.place j).isAsleep) : ∃ j, (s.place j).isAsleep := by
  obtain ⟨j, h_j⟩ := h
  have h_ne : j ≠ i := by
    rintro rfl
    rw [h_place, Function.update_self, h_x] at h_j
    cases h_j
  exact ⟨j, by rwa [place_of_ne h_place h_ne] at h_j⟩

/-- Who sleeps can count on a wake-up. -/
def Awaited (s : State ι μ) : Prop :=
  (∃ i, (s.place i).isAsleep) → kLimit < s.underWay

omit [DecidableEq μ] in
/-- A thread goes on, awake, and what it takes from what is under way it gives back. -/
theorem Awaited.goes {i : ι} {x : Place μ} (h : Awaited s) (h_place : s'.place = Function.update s.place i x)
    (h_x : x.isAsleep = false)
    (h_le : s.messages.card + (s.place i).isPending.toNat + (s.place i).isWoken.toNat
      ≤ s'.messages.card + x.isPending.toNat + x.isWoken.toNat) : Awaited s' := by
  intro h_asleep
  have h_lt := h (asleep_before h_place h_x h_asleep)
  have h_pending := count_update h_place Place.isPending
  have h_woken := count_update h_place Place.isWoken
  rw [State.underWay] at h_lt ⊢
  omega

/-- A step keeps that who sleeps can count on a wake-up. -/
theorem Awaited.step (h : Awaited s) (h_kept : Kept s) (h_step : Step s s') : Awaited s' := by
  cases h_step with
  | construct h_i _ _ => exact h.goes rfl rfl (by rw [h_i]; rfl)
  | lock h_i _ => exact h.goes rfl rfl (by rw [h_i]; rfl)
  | insert h_i _ =>
    have h_card := h_kept.card_insert (congrArg Place.coming h_i)
    refine h.goes rfl rfl ?_
    rw [h_i]
    exact h_card.symm ▸ Nat.le_succ _
  | sleep _ h_size => exact fun _ => Nat.lt_add_right _ (Nat.lt_add_right _ h_size)
  | wake h_i => exact h.goes rfl rfl (by rw [h_i]; exact Nat.le_succ _)
  | relock h_i _ => exact h.goes rfl rfl (by rw [h_i]; rfl)
  | insertAfterWait h_i _ =>
    -- the thread is no longer one that is awake, but there is its message
    have h_card := h_kept.card_insert (congrArg Place.coming h_i)
    refine h.goes rfl rfl ?_
    rw [h_i]
    exact h_card.ge
  | sleepAgain _ h_size =>
    exact fun _ => Nat.lt_add_right _ (Nat.lt_add_right _ (Nat.lt_of_not_le h_size))
  | leave h_i => exact h.goes rfl rfl (by rw [h_i]; rfl)
  | destroy h_i _ => exact h.goes rfl rfl (by rw [h_i]; rfl)
  | dtorLock h_i _ => exact h.goes rfl rfl (by rw [h_i]; rfl)
  | @erase i m h_i =>
    -- the message is gone, but its destructor is going to notify
    have h_card : s.messages.card ≤ (s.messages.erase m).card + 1 :=
      Nat.sub_le_iff_le_add.mp Finset.pred_card_le_card_erase
    refine h.goes rfl rfl ?_
    rw [h_i]
    exact h_card
  | unlock h_i => exact h.goes rfl rfl (by rw [h_i]; rfl)
  | @notify i j m h_i h_asleep =>
    have h_ne : i ≠ j := by
      rintro rfl
      rw [h_i] at h_asleep
      cases h_asleep
    -- one notification less, and one thread more that is awake
    have h_lt := h ⟨j, by rw [h_asleep]; rfl⟩
    let s₁ : State ι μ := s.goto j (.woken m)
    have h_place : s₁.place i = .notify := (place_of_ne rfl h_ne).trans h_i
    have h_wakes (P : Place μ → Bool) :
        s₁.count P + (P (.asleep m)).toNat = s.count P + (P (.woken m)).toNat := by
      rw [← h_asleep]
      exact count_update rfl P
    have h_goes (P : Place μ → Bool) :
        (s₁.goto i .outside).count P + (P .notify).toNat = s₁.count P + (P .outside).toNat := by
      rw [← h_place]
      exact count_update rfl P
    have h_pending : (s₁.goto i .outside).count Place.isPending + 1 = s.count Place.isPending :=
      (h_goes Place.isPending).trans (h_wakes Place.isPending)
    have h_woken : (s₁.goto i .outside).count Place.isWoken = s.count Place.isWoken + 1 :=
      (h_goes Place.isWoken).trans (h_wakes Place.isWoken)
    refine fun _ => h_lt.trans_eq ?_
    change s.messages.card + _ + _ = s.messages.card + (s₁.goto i .outside).count Place.isPending +
      (s₁.goto i .outside).count Place.isWoken
    omega
  | notifyNone h_i h_none =>
    -- nobody has slept
    refine fun h_asleep => ?_
    obtain ⟨j, h_j⟩ := asleep_before rfl rfl h_asleep
    rw [h_none j] at h_j
    cases h_j

/-- **There are more than `kLimit` messages, notifications to come, and threads that are awake, as long as
some thread sleeps; and so some are left.** -/
theorem wakeup (h : Reachable s) :
    ((∃ i, (s.place i).isAsleep) →
      kLimit < s.messages.card + s.count Place.isPending + s.count Place.isWoken) ∧
    ¬ (s.messages = ∅ ∧ s.count Place.isPending = 0 ∧ s.count Place.isWoken = 0 ∧
      ∃ i, (s.place i).isAsleep) := by
  have h_awaited : Awaited s := by
    induction h with
    | refl => exact fun ⟨_, h_asleep⟩ => by cases h_asleep
    | tail h_run h_step ih => exact ih.step (Reachable.kept h_run) h_step
  refine ⟨h_awaited, fun ⟨h_messages, h_pending, h_woken, h_asleep⟩ => ?_⟩
  have h_lt := h_awaited h_asleep
  rw [State.underWay, h_messages, h_pending, h_woken] at h_lt
  exact absurd h_lt (Nat.not_lt_zero _)

omit [Fintype ι] in
/-- A constructor that finds too many messages falls asleep. -/
theorem queue (i : ι) {m : μ} (h_free : s.holder = none) (h_outside : ∀ j, s.place j = .outside)
    (h_new : m ∉ s.objects) (h_size : kLimit < s.messages.card) :
    ∃ s', ReflTransGen Step s s' ∧ ∃ i, (s'.place i).isAsleep := by
  let s₁ : State ι μ := s.goto i (.lock m)
  let s₂ : State ι μ := s₁.acquire i (.check m)
  have h₁ : Step s s₁ := by
    refine .construct (h_outside i) h_new fun j => ?_
    rw [h_outside j]
    exact (Option.some_ne_none m).symm
  have h₂ : Step s₁ s₂ := .lock (goto_self _ _ _) h_free
  have h₃ : Step s₂ (s₂.release i (.asleep m)) := .sleep (goto_self _ _ _) h_size
  exact ⟨_, .head h₁ (.head h₂ (.single h₃)), i, congrArg Place.isAsleep (goto_self s₂ i _)⟩

/-- The eighth of eight threads sleeps, with seven messages there. -/
theorem wakeup_eighth : ∃ s : State (Fin 8) ℕ, (∃ i, (s.place i).isAsleep) ∧
    kLimit < s.messages.card + s.count Place.isPending + s.count Place.isWoken := by
  obtain ⟨s, h_run, h_free, h_outside, h_messages, h_objects⟩ :=
    letIn_range (Fin.ofNat 8) 7 le_rfl fun a b (h_step : Step a b) _ => h_step
  have h_size : kLimit < s.messages.card := by
    rw [h_messages, Finset.card_range]
    decide
  have h_new : 7 ∉ s.objects := by
    rw [h_objects]
    exact Finset.notMem_range_self
  obtain ⟨s', h_run', h_asleep⟩ := queue 7 h_free h_outside h_new h_size
  exact ⟨s', h_asleep, (wakeup (h_run.trans h_run')).1 h_asleep⟩

end Wakeups

end GitlstreeFS.ConcurrencyLimit
