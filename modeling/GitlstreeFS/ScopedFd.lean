import GitlstreeFS.Custody
import Mathlib.Data.Int.Notation

/-!
# `ScopedFd`

A `ScopedFd` of `scoped_fd.h` holds a file descriptor. A program is a list of operations on any number of
objects; it runs as long as its operations are possible. The log tells which descriptors were handed in, closed
and released. A number is handed in only while it is free: an open descriptor is not opened again.

In terms of custody, each operation takes, gives back or moves a descriptor, but a move assignment first loses
what its target holds (`Means`). So no object ever holds a descriptor that was closed, and what was handed in
is closed or released once, just if no target of a move assignment holds a descriptor (`ownsOnce_iff`).
-/

namespace GitlstreeFS

open Custody (Event Status status Sound Covered Lost)

/-! ### `scoped_fd.h` -/

/-- `ScopedFd`: a file descriptor, or -1. -/
structure ScopedFd where
  fd_ : ℤ
  deriving DecidableEq, Repr

namespace ScopedFd

/-- `MaybeClose`, and what it closes. -/
def maybeClose (o : ScopedFd) : Option ℤ × ScopedFd :=
  (if o.fd_ ≠ -1 then some o.fd_ else none, { o with fd_ := -1 })

/-- `release`, and what it returns. -/
def release (o : ScopedFd) : ℤ × ScopedFd :=
  let ret := o.fd_
  (ret, { o with fd_ := -1 })

/-- `reset`, and what it closes. -/
def reset (o : ScopedFd) (fd : ℤ) : Option ℤ × ScopedFd :=
  let (closed, o) := o.maybeClose
  (closed, { o with fd_ := fd })

/-- `clear`. -/
def clear (o : ScopedFd) : Option ℤ × ScopedFd :=
  o.reset (-1)

/-- The move constructor, and what becomes of its argument. -/
def moveConstruct (target : ScopedFd) : ScopedFd × ScopedFd :=
  let (fd, target) := target.release
  (⟨fd⟩, target)

/-- The move assignment, and what becomes of its argument. -/
def moveAssign (o target : ScopedFd) : ScopedFd × ScopedFd :=
  let (fd, target) := target.release
  ({ o with fd_ := fd }, target)

/-- The destructor: what it closes. -/
def destruct (o : ScopedFd) : Option ℤ :=
  o.maybeClose.1

/-! ### Programs -/

/-- How a descriptor is given back. -/
inductive Way where
  | closed
  | released
  deriving DecidableEq, Repr

/-- The operations on the objects `ι`. -/
inductive Op (ι : Type) where
  | construct (i : ι) (fd : ℤ)
  | moveConstruct (i j : ι)
  | moveAssign (i j : ι)
  | reset (i : ι) (fd : ℤ)
  | release (i : ι)
  | clear (i : ι)
  | destruct (i : ι)
  deriving DecidableEq, Repr

/-- The objects that there are, and what happened to the descriptors. -/
structure State (ι : Type) where
  objects : ι → Option ScopedFd
  log : List (Event ℤ Way)

/-- The descriptor that a number is, if any. -/
def descriptor (fd : ℤ) : Option ℤ :=
  if fd ≠ -1 then some fd else none

/-- The descriptor is handed in. -/
def handedIn (fd : ℤ) : List (Event ℤ Way) :=
  (descriptor fd).toList.map .taken

/-- The descriptor, if any, is given back. -/
def givenBack (fd? : Option ℤ) (way : Way) : List (Event ℤ Way) :=
  fd?.toList.map (.given · way)

/-- What `open` returns: -1, or a descriptor that is not open. -/
def Fresh (log : List (Event ℤ Way)) (fd : ℤ) : Prop :=
  fd ≠ -1 → status fd log = .free

instance (log : List (Event ℤ Way)) (fd : ℤ) : Decidable (Fresh log fd) :=
  inferInstanceAs (Decidable (_ → _))

variable {ι : Type} [DecidableEq ι]

/-- One operation. It is possible if its objects are there, and a new one is not. -/
def step (s : State ι) : Op ι → Option (State ι)
  | .construct i fd =>
    if s.objects i = none ∧ Fresh s.log fd then
      some ⟨Function.update s.objects i (some ⟨fd⟩), s.log ++ handedIn fd⟩
    else none
  | .moveConstruct i j => do
    let target ← s.objects j
    let (o, target) := target.moveConstruct
    if s.objects i = none then
      some ⟨Function.update (Function.update s.objects j (some target)) i (some o), s.log⟩
    else none
  | .moveAssign i j => do
    let o ← s.objects i
    let target ← s.objects j
    let (o, target) := o.moveAssign target
    if i ≠ j then some ⟨Function.update (Function.update s.objects j (some target)) i (some o), s.log⟩
    else none
  | .reset i fd => do
    let o ← s.objects i
    let (closed, o) := o.reset fd
    if Fresh s.log fd then
      some ⟨Function.update s.objects i (some o), s.log ++ givenBack closed .closed ++ handedIn fd⟩
    else none
  | .release i => do
    let o ← s.objects i
    let (ret, o) := o.release
    some ⟨Function.update s.objects i (some o), s.log ++ givenBack (descriptor ret) .released⟩
  | .clear i => do
    let o ← s.objects i
    let (closed, o) := o.clear
    some ⟨Function.update s.objects i (some o), s.log ++ givenBack closed .closed⟩
  | .destruct i => do
    let o ← s.objects i
    some ⟨Function.update s.objects i none, s.log ++ givenBack o.destruct .closed⟩

/-- A program. -/
def run (ops : List (Op ι)) : Option (State ι) :=
  ops.foldlM step ⟨fun _ => none, []⟩

/-- In the end all objects are destroyed. -/
def Complete (ops : List (Op ι)) : Prop :=
  ∃ s, run ops = some s ∧ ∀ i, s.objects i = none

/-- Each descriptor is owned once. -/
structure OwnsOnce (ops : List (Op ι)) : Prop where
  /-- In the end, each descriptor was closed or released once each time that it was handed in. -/
  settled : ∀ s, run ops = some s → ∀ fd, status fd s.log = .free
  /-- All along, what an object holds was handed in, and not closed or released since. -/
  held : ∀ p s, p <+: ops → run p = some s →
    ∀ i o, s.objects i = some o → o.fd_ ≠ -1 → status o.fd_ s.log = .taken

/-- Whatever is assigned to holds nothing. -/
def NeverOverwrites (ops : List (Op ι)) : Prop :=
  ∀ p i j, p ++ [.moveAssign i j] <+: ops → ∀ s, run p = some s → ∀ o, s.objects i = some o → o.fd_ = -1

/-! ### In terms of custody -/

/-- What the objects hold. -/
def State.custody (s : State ι) : Custody ι ℤ Way :=
  ⟨fun i => (s.objects i).bind fun o => descriptor o.fd_, s.log⟩

/-- What the operations mean. -/
inductive Means : Op ι → Custody ι ℤ Way → Custody ι ℤ Way → Prop where
  | construct {i : ι} {fd : ℤ} {c : Custody ι ℤ Way} (h_none : c.holds i = none)
      (h_fresh : ∀ d ∈ descriptor fd, status d c.log = .free) :
      Means (.construct i fd) c (c.take i (descriptor fd))
  | moveConstruct {i j : ι} {c : Custody ι ℤ Way} (h_none : c.holds i = none) :
      Means (.moveConstruct i j) c (c.move i j)
  | moveAssign {i j : ι} {c : Custody ι ℤ Way} : Means (.moveAssign i j) c ((c.lose i).move i j)
  | reset {i : ι} {fd : ℤ} {c : Custody ι ℤ Way} (h_fresh : ∀ d ∈ descriptor fd, status d c.log = .free) :
      Means (.reset i fd) c ((c.give i .closed).take i (descriptor fd))
  | release {i : ι} {c : Custody ι ℤ Way} : Means (.release i) c (c.give i .released)
  | clear {i : ι} {c : Custody ι ℤ Way} : Means (.clear i) c (c.give i .closed)
  | destruct {i : ι} {c : Custody ι ℤ Way} : Means (.destruct i) c (c.give i .closed)

variable {ops : List (Op ι)} {op : Op ι} {s s' : State ι} {c c' : Custody ι ℤ Way} {i j : ι} {fd d : ℤ}
  {o : ScopedFd}

theorem mem_descriptor : d ∈ descriptor fd ↔ fd ≠ -1 ∧ fd = d := by
  rw [descriptor, Option.mem_def]
  split_ifs with h
  · rw [Option.some.injEq, and_iff_right h]
  · exact iff_of_false nofun fun h' => h h'.1

omit [DecidableEq ι] in
theorem Fresh.status (h : Fresh s.log fd) : ∀ d ∈ descriptor fd, status d s.custody.log = .free := by
  intro d h_d
  obtain ⟨h_fd, rfl⟩ := mem_descriptor.mp h_d
  exact h h_fd

omit [DecidableEq ι] in
theorem holds_of_some (h : s.objects i = some o) : s.custody.holds i = descriptor o.fd_ := by
  change (s.objects i).bind _ = _
  rw [h, Option.bind_some]

omit [DecidableEq ι] in
theorem holds_of_none (h : s.objects i = none) : s.custody.holds i = none := by
  change (s.objects i).bind _ = _
  rw [h, Option.bind_none]

/-- What the objects hold after one of them has changed. -/
theorem custody_update (objects : ι → Option ScopedFd) (i : ι) (o? : Option ScopedFd)
    (log : List (Event ℤ Way)) :
    (State.mk (Function.update objects i o?) log).custody
      = ⟨Function.update (State.mk objects log).custody.holds i (o?.bind fun o => descriptor o.fd_),
          log⟩ := by
  rw [State.custody, Custody.mk.injEq, and_iff_left rfl]
  funext k
  change (Function.update objects i o? k).bind _ = _
  rw [Function.update_apply, Function.update_apply]
  split <;> rfl

theorem give_of_some (h : s.objects i = some o) (way : Way) :
    s.custody.give i way
      = ⟨Function.update s.custody.holds i none, s.log ++ givenBack (descriptor o.fd_) way⟩ := by
  rw [Custody.give, holds_of_some h]
  rfl

/-- A descriptor that changes its object. -/
theorem move_of_some (h : s.objects j = some o) :
    s.custody.move i j
      = (State.mk (Function.update (Function.update s.objects j (some ⟨-1⟩)) i (some ⟨o.fd_⟩))
          s.log).custody := by
  rw [Custody.move, holds_of_some h, custody_update, custody_update]
  rfl

/-- **One operation.** -/
theorem means_of_step (h : step s op = some s') : Means op s.custody s'.custody := by
  cases op with
  | construct i fd =>
    rw [step] at h
    split_ifs at h with h_possible
    obtain rfl := Option.some.inj h
    rw [custody_update]
    exact .construct (holds_of_none h_possible.1) h_possible.2.status
  | moveConstruct i j =>
    obtain ⟨target, h_j, h⟩ := Option.bind_eq_some_iff.mp h
    dsimp only [moveConstruct, release] at h
    split_ifs at h with h_i
    obtain rfl := Option.some.inj h
    exact move_of_some h_j ▸ Means.moveConstruct (holds_of_none h_i)
  | moveAssign i j =>
    obtain ⟨o, -, h⟩ := Option.bind_eq_some_iff.mp h
    obtain ⟨target, h_j, h⟩ := Option.bind_eq_some_iff.mp h
    dsimp only [moveAssign, release] at h
    split_ifs at h with h_ne
    obtain rfl := Option.some.inj h
    exact move_of_some h_j ▸ Custody.lose_move h_ne ▸ Means.moveAssign
  | reset i fd =>
    obtain ⟨o, h_i, h⟩ := Option.bind_eq_some_iff.mp h
    dsimp only [reset] at h
    split_ifs at h with h_fresh
    obtain rfl := Option.some.inj h
    -- what was held is closed first, and then the place is taken
    have h_reset := Means.reset (i := i) h_fresh.status
    rw [Custody.take, give_of_some h_i, Function.update_idem] at h_reset
    rw [custody_update]
    exact h_reset
  | release i =>
    obtain ⟨o, h_i, h⟩ := Option.bind_eq_some_iff.mp h
    obtain rfl := Option.some.inj h
    rw [custody_update]
    exact give_of_some h_i .released ▸ Means.release
  | clear i =>
    obtain ⟨o, h_i, h⟩ := Option.bind_eq_some_iff.mp h
    obtain rfl := Option.some.inj h
    rw [custody_update]
    exact give_of_some h_i .closed ▸ Means.clear
  | destruct i =>
    obtain ⟨o, h_i, h⟩ := Option.bind_eq_some_iff.mp h
    obtain rfl := Option.some.inj h
    rw [custody_update]
    exact give_of_some h_i .closed ▸ Means.destruct

/-! ### Steps -/

theorem Means.sound (h : Means op c c') (h_sound : Sound c) : Sound c' := by
  cases h with
  | construct _ h_fresh => exact h_sound.take h_fresh _
  | moveConstruct h_none => exact h_sound.move h_none _
  | moveAssign => exact (h_sound.lose _).move (Function.update_self _ _ _) _
  | reset h_fresh => exact (h_sound.give _ _).take (h_sound.free_give h_fresh _ _) _
  | release | clear | destruct => exact h_sound.give _ _

/-- Nothing is lost, unless the target of a move assignment holds something. -/
theorem Means.covered (h : Means op c c') (h_sound : Sound c) (h_covered : Covered c)
    (h_op : ∀ i j, op = .moveAssign i j → c.holds i = none) : Covered c' := by
  cases h with
  | construct h_none h_fresh => exact h_covered.take h_fresh h_none
  | moveConstruct h_none => exact h_covered.move h_none _
  | @moveAssign i j =>
    have h_none := h_op i j rfl
    rw [Custody.lose_of_none h_none]
    exact h_covered.move h_none j
  | reset h_fresh =>
    exact (h_covered.give h_sound _ _).take (h_sound.free_give h_fresh _ _) (Function.update_self _ _ _)
  | release | clear | destruct => exact h_covered.give h_sound _ _

theorem Means.lost (h : Means op c c') (h_sound : Sound c) (h_lost : Lost d c) : Lost d c' := by
  cases h with
  | construct _ h_fresh => exact h_lost.take h_fresh _
  | moveConstruct h_none => exact h_lost.move h_none _
  | moveAssign => exact (h_lost.lose _).move (Function.update_self _ _ _) _
  | reset h_fresh => exact (h_lost.give h_sound _ _).take (h_sound.free_give h_fresh _ _) _
  | release | clear | destruct => exact h_lost.give h_sound _ _

/-- What the target of a move assignment holds is lost. -/
theorem Means.lost_of_moveAssign (h : Means (.moveAssign i j) c c') (h_sound : Sound c)
    (h_i : c.holds i = some d) : Lost d c' := by
  cases h with
  | moveAssign => exact (h_sound.lost h_i).move (Function.update_self _ _ _) _

/-! ### Runs -/

theorem run_concat (ops : List (Op ι)) (op : Op ι) : run (ops ++ [op]) = (run ops).bind (step · op) := by
  simp only [run, List.foldlM_append, List.foldlM_cons, List.foldlM_nil, bind_pure]
  rfl

theorem run_concat_eq_some (h : run (ops ++ [op]) = some s') : ∃ s, run ops = some s ∧ step s op = some s' :=
  Option.bind_eq_some_iff.mp (run_concat ops op ▸ h)

/-- What runs has run so far. -/
theorem exists_run_of_part {p : List (Op ι)} (h_part : p <+: ops) (h : run ops = some s) :
    ∃ s, run p = some s := by
  obtain ⟨rest, rfl⟩ := h_part
  induction rest using List.reverseRecOn generalizing s with
  | nil => exact ⟨s, List.append_nil p ▸ h⟩
  | append_singleton rest op ih =>
    rw [← List.append_assoc] at h
    obtain ⟨s₁, h₁, -⟩ := run_concat_eq_some h
    exact ih h₁

theorem sound_of_run (h : run ops = some s) : Sound s.custody := by
  induction ops using List.reverseRecOn generalizing s with
  | nil =>
    cases h
    exact ⟨nofun, nofun, nofun⟩
  | append_singleton ops op ih =>
    obtain ⟨s₁, h₁, h_step⟩ := run_concat_eq_some h
    exact (means_of_step h_step).sound (ih h₁)

theorem NeverOverwrites.of_part {p : List (Op ι)} (h : NeverOverwrites ops) (h_part : p <+: ops) :
    NeverOverwrites p :=
  fun p' i j h_p' => h p' i j (h_p'.trans h_part)

theorem covered_of_run (h_never : NeverOverwrites ops) (h : run ops = some s) : Covered s.custody := by
  induction ops using List.reverseRecOn generalizing s with
  | nil =>
    cases h
    exact nofun
  | append_singleton ops op ih =>
    obtain ⟨s₁, h₁, h_step⟩ := run_concat_eq_some h
    have h_covered := ih (h_never.of_part (List.prefix_append _ _)) h₁
    refine (means_of_step h_step).covered (sound_of_run h₁) h_covered fun i j h_op => ?_
    subst h_op
    -- the target is there, and is -1
    cases h_i : s₁.objects i with
    | none => exact holds_of_none h_i
    | some o =>
      rw [holds_of_some h_i, h_never ops i j List.prefix_rfl s₁ h₁ o h_i]
      rfl

/-- What is lost on the way is lost in the end. -/
theorem lost_of_run {p rest : List (Op ι)} (h_p : run p = some s) (h_lost : Lost d s.custody)
    (h : run (p ++ rest) = some s') : Lost d s'.custody := by
  induction rest using List.reverseRecOn generalizing s' with
  | nil =>
    rw [List.append_nil, h_p] at h
    exact Option.some.inj h ▸ h_lost
  | append_singleton rest op ih =>
    rw [← List.append_assoc] at h
    obtain ⟨s₁, h₁, h_step⟩ := run_concat_eq_some h
    exact (means_of_step h_step).lost (sound_of_run h₁) (ih h₁)

/-! ### Each descriptor once -/

/-- **No object holds what was closed**, in any run. -/
theorem taken_of_run (h : run ops = some s) (h_i : s.objects i = some o) (h_o : o.fd_ ≠ -1) :
    status o.fd_ s.log = .taken :=
  (sound_of_run h).taken i o.fd_ ((holds_of_some h_i).trans (if_pos h_o))

/-- Without overwriting, what no object holds is free. -/
theorem free_of_run (h_never : NeverOverwrites ops) (h : run ops = some s) (h_end : ∀ i, s.objects i = none)
    (fd : ℤ) : status fd s.log = .free := by
  cases h_status : status fd s.log with
  | free => rfl
  | taken =>
    -- some object would hold it
    obtain ⟨i, h_i⟩ := covered_of_run h_never h fd h_status
    cases (holds_of_none (h_end i)).symm.trans h_i
  | broken => exact absurd h_status ((sound_of_run h).kept fd)

/-- What is overwritten is never given back. -/
theorem OwnsOnce.neverOverwrites (h_once : OwnsOnce ops) (h : run ops = some s) : NeverOverwrites ops := by
  intro p i j h_part s₁ h₁ o h_o
  by_contra h_fd
  obtain ⟨s₂, h₂⟩ := exists_run_of_part h_part h
  obtain ⟨s₁', h₁', h_step⟩ := run_concat_eq_some h₂
  obtain rfl := Option.some.inj (h₁.symm.trans h₁')
  have h_holds : s₁.custody.holds i = some o.fd_ := (holds_of_some h_o).trans (if_pos h_fd)
  -- with this step it is lost, and stays so for the rest of the run
  have h_lost := (means_of_step h_step).lost_of_moveAssign (sound_of_run h₁) h_holds
  obtain ⟨rest, rfl⟩ := h_part
  have h_taken := (lost_of_run h₂ h_lost h).1
  cases (h_once.settled s h o.fd_).symm.trans h_taken

/-- In the end, each descriptor was closed or released as often as it was handed in. -/
theorem OwnsOnce.count (h_once : OwnsOnce ops) (h : run ops = some s) (fd : ℤ) :
    s.log.countP (Event.takes fd) = s.log.countP (Event.gives fd) := by
  have h_free := h_once.settled s h fd
  rw [Custody.countP_takes (by rw [h_free]; nofun), h_free]
  rfl

/-- **Each descriptor is owned once** just if nothing that holds a descriptor is assigned to. -/
theorem ownsOnce_iff (h : Complete ops) : OwnsOnce ops ↔ NeverOverwrites ops := by
  obtain ⟨s, h_run, h_end⟩ := h
  constructor
  · intro h_once
    exact h_once.neverOverwrites h_run
  · intro h_never
    refine ⟨fun s' h_s' => ?_, fun p s' _ h_s' i o h_i h_o => taken_of_run h_s' h_i h_o⟩
    obtain rfl := Option.some.inj (h_run.symm.trans h_s')
    exact free_of_run h_never h_run h_end

/-- The test `TestMove`, with the destructors. -/
theorem ownsOnce_testMove :
    OwnsOnce [.construct false 3, .moveConstruct true false, .destruct true, .destruct false] ↔
      NeverOverwrites [.construct false 3, .moveConstruct true false, .destruct true, .destruct false] :=
  ownsOnce_iff ⟨_, rfl, fun i => by cases i <;> rfl⟩

/-- The descriptor 3 is never closed. -/
theorem not_ownsOnce_moveAssign :
    ¬ OwnsOnce [.construct false 3, .construct true 4, .moveAssign false true, .destruct true,
      .destruct false] := by
  intro h
  have h_free := h.settled _ rfl 3
  revert h_free
  decide

end ScopedFd

end GitlstreeFS
