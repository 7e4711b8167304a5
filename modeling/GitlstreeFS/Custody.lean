import Mathlib.Data.List.Induction
import Mathlib.Logic.Equiv.Basic
import Mathlib.Tactic.Common

/-!
# Resources in custody

Holders take resources, move them among themselves, and give them back in one way or another. A log says
what was taken and given back. From the log alone, a resource is `free`, which is where every taking was
followed by one giving back, or `taken`, or it was given back or taken out of turn (`status`).

While only free resources are taken, a holder holds what is taken, no two hold the same, and nothing happens
out of turn (`Sound`). If nothing was lost, what is taken is held (`Covered`). What is lost stays so
(`Lost`): nobody can give it back.
-/

/-- What happens to a resource. -/
inductive Custody.Event (δ κ : Type) where
  | taken (d : δ)
  | given (d : δ) (way : κ)
  deriving DecidableEq, Repr

/-- What each holder holds, and what has happened. -/
structure Custody (ι δ κ : Type) where
  holds : ι → Option δ
  log : List (Custody.Event δ κ)

namespace Custody

/-! ### The steps -/

variable {ι δ κ : Type} [DecidableEq ι] {c : Custody ι δ κ} {i j k : ι} {d : δ}

/-- `i` takes `d?`, if there is one. -/
def take (c : Custody ι δ κ) (i : ι) (d? : Option δ) : Custody ι δ κ :=
  ⟨Function.update c.holds i d?, c.log ++ d?.toList.map .taken⟩

/-- `i` gives back what it holds, if anything. -/
def give (c : Custody ι δ κ) (i : ι) (way : κ) : Custody ι δ κ :=
  ⟨Function.update c.holds i none, c.log ++ (c.holds i).toList.map (.given · way)⟩

/-- What `j` holds moves to `i`. -/
def move (c : Custody ι δ κ) (i j : ι) : Custody ι δ κ :=
  ⟨Function.update (Function.update c.holds j none) i (c.holds j), c.log⟩

/-- `i` forgets what it holds. -/
def lose (c : Custody ι δ κ) (i : ι) : Custody ι δ κ :=
  ⟨Function.update c.holds i none, c.log⟩

theorem take_holds (d? : Option δ) : (c.take i d?).holds k = if k = i then d? else c.holds k :=
  Function.update_apply _ _ _ _

theorem lose_of_none (h : c.holds i = none) : c.lose i = c := by
  rw [lose, ← h, Function.update_eq_self]

/-- What `i` holds is lost in a move to it. -/
theorem lose_move (h : i ≠ j) : (c.lose i).move i j = c.move i j := by
  rw [move, move]
  dsimp only [lose]
  rw [Function.update_of_ne h.symm, Function.update_comm h, Function.update_idem]

/-- Who held something after another has let go of it. -/
theorem of_update_none (h : Function.update c.holds i none k = some d) : k ≠ i ∧ c.holds k = some d := by
  rw [Function.update_apply] at h
  split_ifs at h with h_k
  exact ⟨h_k, h⟩

theorem update_none (h : c.holds k = some d) (h_i : c.holds i ≠ some d) :
    Function.update c.holds i none k = some d := by
  rw [Function.update_of_ne, h]
  rintro rfl
  exact h_i h

/-- Where `i` holds nothing, a move from `j` makes them change their places. -/
theorem move_holds (h : c.holds i = none) (k : ι) : (c.move i j).holds k = c.holds (Equiv.swap i j k) := by
  change Function.update (Function.update c.holds j none) i (c.holds j) k = _
  rw [Function.update_apply, Function.update_apply, Equiv.swap_apply_def]
  split_ifs
  · rfl
  · exact h.symm
  · rfl

/-! ### The log -/

/-- What a log tells of a resource. -/
inductive Status where
  /-- Each time that it was taken, it was given back, once, before it was taken again. -/
  | free
  /-- So it was before the last time, since which it was not given back. -/
  | taken
  /-- It was taken twice, or given back twice, in a row. -/
  | broken
  deriving DecidableEq, Repr

variable [DecidableEq δ]

/-- One more event. -/
def Status.next (d : δ) (st : Status) : Event δ κ → Status
  | .taken d' => if d' = d then (if st = .free then .taken else .broken) else st
  | .given d' _ => if d' = d then (if st = .taken then .free else .broken) else st

/-- What the log tells of `d`. -/
def status (d : δ) (log : List (Event δ κ)) : Status :=
  log.foldl (Status.next d) .free

variable {d? : Option δ} {log : List (Event δ κ)}

/-- It is a taking of `d`. -/
def Event.takes (d : δ) : Event δ κ → Bool
  | .taken d' => d' = d
  | .given _ _ => false

/-- It is a giving back of `d`. -/
def Event.gives (d : δ) : Event δ κ → Bool
  | .taken _ => false
  | .given d' _ => d' = d

theorem status_concat (d : δ) (log : List (Event δ κ)) (e : Event δ κ) :
    status d (log ++ [e]) = Status.next d (status d log) e := by
  rw [status, List.foldl_append, ← status, List.foldl_cons, List.foldl_nil]

/-- In turn, a taking makes it taken, and a giving back makes it free again. -/
theorem Status.next_adds_up {st : Status} {e : Event δ κ} (h : Status.next d st e ≠ .broken) :
    st ≠ .broken ∧ (if e.takes d then 1 else 0) + (if st = .taken then 1 else 0)
      = (if e.gives d then 1 else 0) + if Status.next d st e = .taken then 1 else 0 := by
  cases e with
  | taken d' =>
    by_cases h_d : d' = d
    · cases st <;> simp [Status.next, Event.takes, Event.gives, h_d] at h ⊢
    · simpa [Status.next, Event.takes, Event.gives, h_d] using h
  | given d' way =>
    by_cases h_d : d' = d
    · cases st <;> simp [Status.next, Event.takes, Event.gives, h_d] at h ⊢
    · simpa [Status.next, Event.takes, Event.gives, h_d] using h

/-- **What is not out of turn adds up.** -/
theorem countP_takes (h : status d log ≠ .broken) :
    log.countP (Event.takes d) = log.countP (Event.gives d) + if status d log = .taken then 1 else 0 := by
  induction log using List.reverseRecOn with
  | nil => rfl
  | append_singleton log e ih =>
    rw [status_concat] at h ⊢
    obtain ⟨h_before, h_adds_up⟩ := Status.next_adds_up h
    have h_ih := ih h_before
    rw [List.countP_append, List.countP_append, List.countP_singleton, List.countP_singleton]
    omega

/-- An event of what there may be changes that, and nothing else. -/
theorem status_append {f : δ → Event δ κ} {st : Status}
    (h : ∀ d' ∈ d?, Status.next d (status d log) (f d') = if d' = d then st else status d log) :
    status d (log ++ d?.toList.map f) = if d? = some d then st else status d log := by
  cases d? with
  | none => rw [Option.toList_none, List.map_nil, List.append_nil, if_neg nofun]
  | some d' =>
    rw [Option.toList_some, List.map_singleton, status_concat, h d' rfl]
    by_cases h_d : d' = d
    · rw [if_pos h_d, if_pos (congrArg some h_d)]
    · rw [if_neg h_d, if_neg fun h => h_d (Option.some.inj h)]

theorem status_taken (h_free : ∀ d' ∈ d?, status d' log = .free) (d : δ) :
    status d (log ++ d?.toList.map .taken) = if d? = some d then .taken else status d log := by
  refine status_append fun d' h_d' => ?_
  rw [Status.next]
  split_ifs with h_d h_st
  · rfl
  · exact absurd (h_d ▸ h_free d' h_d') h_st
  · rfl

theorem status_given (h_taken : ∀ d' ∈ d?, status d' log = .taken) (d : δ) (way : κ) :
    status d (log ++ d?.toList.map (.given · way)) = if d? = some d then .free else status d log := by
  refine status_append fun d' h_d' => ?_
  rw [Status.next]
  split_ifs with h_d h_st
  · rfl
  · exact absurd (h_d ▸ h_taken d' h_d') h_st
  · rfl

/-! ### Soundness -/

/-- Nothing happens out of turn, and what is held is taken, by one holder. -/
structure Sound (c : Custody ι δ κ) : Prop where
  taken : ∀ i d, c.holds i = some d → status d c.log = .taken
  unique : ∀ i j d, c.holds i = some d → c.holds j = some d → i = j
  kept : ∀ d, status d c.log ≠ .broken

theorem Sound.take (h : Sound c) (h_free : ∀ d ∈ d?, status d c.log = .free) (i : ι) :
    Sound (c.take i d?) := by
  -- whoever holds something after it is `i`, or held it before, and then it is not what `i` takes
  have h_cases : ∀ k d, (c.take i d?).holds k = some d →
      k = i ∧ d? = some d ∨ c.holds k = some d ∧ d? ≠ some d := by
    intro k d h_k
    rw [take_holds] at h_k
    split_ifs at h_k with h_eq
    · exact .inl ⟨h_eq, h_k⟩
    · refine .inr ⟨h_k, fun h_d => ?_⟩
      have h_taken := h.taken k d h_k
      rw [h_free d h_d] at h_taken
      cases h_taken
  constructor
  · intro k d h_k
    rw [Custody.take, status_taken h_free]
    split_ifs with h_d
    · rfl
    · obtain ⟨-, h_k⟩ | ⟨h_k, -⟩ := h_cases k d h_k
      · exact absurd h_k h_d
      · exact h.taken k d h_k
  · intro k l d h_k h_l
    obtain ⟨rfl, h_d⟩ | ⟨h_k, h_d⟩ := h_cases k d h_k <;> obtain ⟨rfl, h_d'⟩ | ⟨h_l, h_d'⟩ := h_cases l d h_l
    · rfl
    · exact absurd h_d h_d'
    · exact absurd h_d' h_d
    · exact h.unique k l d h_k h_l
  · intro d
    rw [Custody.take, status_taken h_free]
    split_ifs
    · nofun
    · exact h.kept d

/-- What is given back is free. -/
theorem Sound.status_give (h : Sound c) (i : ι) (way : κ) (d : δ) :
    status d (c.give i way).log = if c.holds i = some d then .free else status d c.log :=
  status_given (fun d' h_d' => h.taken i d' h_d') d way

/-- What is free stays free. -/
theorem Sound.free_give (h : Sound c) (h_free : ∀ d ∈ d?, status d c.log = .free) (i : ι) (way : κ) :
    ∀ d ∈ d?, status d (c.give i way).log = .free := by
  intro d h_d
  rw [h.status_give, h_free d h_d, ite_self]

theorem Sound.give (h : Sound c) (i : ι) (way : κ) : Sound (c.give i way) := by
  constructor
  · intro k d h_k
    obtain ⟨h_ne, h_k⟩ := of_update_none h_k
    rw [h.status_give, if_neg fun h_i => h_ne (h.unique k i d h_k h_i)]
    exact h.taken k d h_k
  · intro k l d h_k h_l
    exact h.unique k l d (of_update_none h_k).2 (of_update_none h_l).2
  · intro d
    rw [h.status_give]
    split_ifs
    · nofun
    · exact h.kept d

theorem Sound.lose (h : Sound c) (i : ι) : Sound (c.lose i) :=
  ⟨fun k d h_k => h.taken k d (of_update_none h_k).2,
    fun k l d h_k h_l => h.unique k l d (of_update_none h_k).2 (of_update_none h_l).2, h.kept⟩

theorem Sound.move (h : Sound c) (h_none : c.holds i = none) (j : ι) : Sound (c.move i j) := by
  constructor
  · intro k d h_k
    rw [move_holds h_none] at h_k
    exact h.taken _ d h_k
  · intro k l d h_k h_l
    rw [move_holds h_none] at h_k h_l
    exact (Equiv.swap i j).injective (h.unique _ _ d h_k h_l)
  · exact h.kept

/-! ### Where nothing is lost -/

/-- What is taken is held. -/
def Covered (c : Custody ι δ κ) : Prop :=
  ∀ d, status d c.log = .taken → ∃ i, c.holds i = some d

theorem Covered.take (h : Covered c) (h_free : ∀ d ∈ d?, status d c.log = .free) (h_none : c.holds i = none) :
    Covered (c.take i d?) := by
  intro d h_d
  rw [Custody.take, status_taken h_free] at h_d
  split_ifs at h_d with h_eq
  · exact ⟨i, by rw [take_holds, if_pos rfl, h_eq]⟩
  · obtain ⟨k, h_k⟩ := h d h_d
    refine ⟨k, ?_⟩
    rw [take_holds, if_neg, h_k]
    rintro rfl
    cases h_none.symm.trans h_k

theorem Covered.give (h : Covered c) (h_sound : Sound c) (i : ι) (way : κ) : Covered (c.give i way) := by
  intro d h_d
  rw [h_sound.status_give] at h_d
  split_ifs at h_d with h_i
  obtain ⟨k, h_k⟩ := h d h_d
  exact ⟨k, update_none h_k h_i⟩

theorem Covered.move (h : Covered c) (h_none : c.holds i = none) (j : ι) : Covered (c.move i j) := by
  intro d h_d
  obtain ⟨k, h_k⟩ := h d h_d
  -- its holder may have changed the place
  refine ⟨Equiv.swap i j k, ?_⟩
  rw [move_holds h_none, Equiv.swap_apply_self]
  exact h_k

/-! ### What is lost -/

/-- It was taken, and nobody holds it. -/
def Lost (d : δ) (c : Custody ι δ κ) : Prop :=
  status d c.log = .taken ∧ ∀ i, c.holds i ≠ some d

theorem Sound.lost (h : Sound c) (h_i : c.holds i = some d) : Lost d (c.lose i) :=
  ⟨h.taken i d h_i, fun k h_k => (of_update_none h_k).1 (h.unique k i d (of_update_none h_k).2 h_i)⟩

theorem Lost.take (h : Lost d c) (h_free : ∀ d ∈ d?, status d c.log = .free) (i : ι) :
    Lost d (c.take i d?) := by
  -- what is lost is not free, so it is not what is taken
  have h_ne : d? ≠ some d := by
    intro h_d
    have h_taken := h.1
    rw [h_free d h_d] at h_taken
    cases h_taken
  constructor
  · rw [Custody.take, status_taken h_free, if_neg h_ne]
    exact h.1
  · intro k h_k
    rw [take_holds] at h_k
    split_ifs at h_k
    · exact h_ne h_k
    · exact h.2 k h_k

theorem Lost.give (h : Lost d c) (h_sound : Sound c) (i : ι) (way : κ) : Lost d (c.give i way) := by
  refine ⟨?_, fun k h_k => h.2 k (of_update_none h_k).2⟩
  rw [h_sound.status_give, if_neg (h.2 i)]
  exact h.1

theorem Lost.lose (h : Lost d c) (i : ι) : Lost d (c.lose i) :=
  ⟨h.1, fun k h_k => h.2 k (of_update_none h_k).2⟩

theorem Lost.move (h : Lost d c) (h_none : c.holds i = none) (j : ι) : Lost d (c.move i j) := by
  refine ⟨h.1, fun k h_k => h.2 (Equiv.swap i j k) ?_⟩
  rw [← move_holds h_none]
  exact h_k

end Custody
