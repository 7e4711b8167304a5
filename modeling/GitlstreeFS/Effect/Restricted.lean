import GitlstreeFS.Effect.RelyGuarantee
import Mathlib.Data.Nat.Notation

/-!
# Runs whose steps meet a condition

Two ways to speak of some of the runs of a pool only.

`Pool.ReachableIf M F C` admits a step only where `C` allows its call in the state the call finds. Such a
run is a run of `M.refusing C x` as well, the machine in which a call that `C` does not allow fails with
`x` and does nothing (`ReachableIf.refusing`). The judgments of `Effect.RelyGuarantee` for that machine
therefore speak of these runs, and there is no second set of rules.

`Pool.Turns M F P i n c c'` follows one thread. Between `c` and `c'` thread `i` takes `n` steps, the
failing attempts of a `spin` not counted, and each of these attempts fails with an error in `P`. What the
steps of the thread preserve holds after `n` of them, whatever the others do (`Turns.invariant`).
-/

namespace Effect

open Relation

variable {S : Signature} {ι σ φ α : Type}

/-- The call a program issues next. -/
def Prog.next? : Prog S α → Option S.Op
  | .call c _ => some c
  | .spin c _ => some c
  | _ => none

namespace Machine

variable (M : Machine S σ φ)

/-! ### Refusal -/

/-- The machine in which a call that `C` does not allow fails with `x`. -/
def refusing (C : S.Op → σ → Bool) (x : S.Err) : Machine S σ φ where
  exec f c s := if C c s then M.exec f c s else (.error x, s)
  exec_error f c s y h := by
    split at h
    · next h_ok => rw [if_pos h_ok]; exact M.exec_error f c s y h
    · next h_not => rw [if_neg h_not]

variable {C : S.Op → σ → Bool} {x : S.Err}

theorem refusing_exec {c : S.Op} {s : σ} (h : C c s) (f : Option φ) :
    (M.refusing C x).exec f c s = M.exec f c s :=
  if_pos h

theorem refusing_exec_of_not {c : S.Op} {s : σ} (h : C c s = false) (f : Option φ) :
    (M.refusing C x).exec f c s = (.error x, s) :=
  if_neg (by simp [h])

/-- A thread whose call is allowed does not notice. -/
theorem refusing_step {t : Thread S α} {s : σ} (h : t.prog.next?.all fun c => C c s)
    (f : Option φ) : (M.refusing C x).step f t s = M.step f t s := by
  rcases t with ⟨p, e⟩
  cases p with
  | ret a => rfl
  | abort => rfl
  | errno k => rfl
  | call c k => simp only [step, M.refusing_exec (c := c) h]
  | spin c k => simp only [step, M.refusing_exec (c := c) h]

/-- The error of a failing attempt, where the next step of the thread is one. -/
def failing (f : Option φ) (t : Thread S α) (s : σ) : Option S.Err :=
  match t.prog with
  | .spin c _ =>
    match (M.exec f c s).1 with
    | .ok _ => none
    | .error y => some y
  | _ => none

variable {M} in
/-- A failing attempt leaves nothing behind but its error. -/
theorem step_of_failing {f : Option φ} {t : Thread S α} {s : σ} {y : S.Err}
    (h : M.failing f t s = some y) :
    ∃ op k, t.prog = .spin op k ∧ M.step f t s = some (⟨.spin op k, y⟩, s) := by
  rcases t with ⟨_ | _ | _ | _ | ⟨op, k⟩, e⟩ <;> simp only [failing, reduceCtorEq] at h
  have h_frame := M.exec_error f op s
  rcases hr : M.exec f op s with ⟨z | v, s'⟩ <;> rw [hr] at h h_frame
  · obtain rfl := Option.some.inj h
    obtain rfl := h_frame z rfl
    exact ⟨op, k, rfl, by simp only [step, hr]⟩
  · cases h

end Machine

namespace Pool

variable [DecidableEq ι] (M : Machine S σ φ) (F : Option φ → Prop)

/-! ### Steps that are allowed -/

/-- A step of a thread whose call, if it issues one, is allowed by `C`. -/
inductive StepIf (C : S.Op → σ → Bool) : Pool S ι σ α → Pool S ι σ α → Prop
  | mk (c : Pool S ι σ α) (i : ι) (f : Option φ) (hf : F f)
      (hC : (c.threads i).prog.next?.all fun op => C op c.state) (t' : Thread S α) (s' : σ)
      (h : M.step f (c.threads i) c.state = some (t', s')) :
      StepIf C c ⟨Function.update c.threads i t', s'⟩

/-- The configurations a schedule with allowed calls only leads to. -/
def ReachableIf (C : S.Op → σ → Bool) (c c' : Pool S ι σ α) : Prop :=
  ReflTransGen (StepIf M F C) c c'

variable {M F} {C : S.Op → σ → Bool} {c c' : Pool S ι σ α}

/-- **A run with allowed calls only is a run of the machine that refuses the others.** -/
theorem ReachableIf.refusing (h : ReachableIf M F C c c') (x : S.Err) :
    Reachable (M.refusing C x) F c c' := by
  refine ReflTransGen.mono (fun a b h_step => ?_) _ _ h
  obtain ⟨i, f, hf, hC, t', s', hs⟩ := h_step
  refine .mk a i f hf t' s' ?_
  rw [M.refusing_step hC, hs]

variable (M) in
/-- Every call that `schedule` leads to is allowed. -/
def allowed (C : S.Op → σ → Bool) : List (ι × Option φ) → Pool S ι σ α → Bool
  | [], _ => true
  | (i, f) :: schedule, c =>
    ((c.threads i).prog.next?.all fun op => C op c.state) &&
      match M.step f (c.threads i) c.state with
      | some (t, s) => allowed C schedule ⟨Function.update c.threads i t, s⟩
      | none => allowed C schedule c

theorem reachableIf_play {schedule : List (ι × Option φ)} (h : ∀ x ∈ schedule, F x.2)
    (h_allowed : allowed M C schedule c) : ReachableIf M F C c (play M schedule c) := by
  induction schedule generalizing c with
  | nil => exact .refl
  | cons x schedule ih =>
    have h_rest : ∀ y ∈ schedule, F y.2 := fun y hy => h y (List.mem_cons_of_mem _ hy)
    simp only [allowed, Bool.and_eq_true] at h_allowed
    obtain ⟨hC, h_allowed⟩ := h_allowed
    rw [play]
    split
    · next t s h_step =>
      rw [h_step] at h_allowed
      exact .head (.mk c x.1 x.2 (h x List.mem_cons_self) hC t s h_step) (ih h_rest h_allowed)
    · next h_step =>
      rw [h_step] at h_allowed
      exact ih h_rest h_allowed

/-! ### The turns of one thread -/

variable (M F) in
/-- A run from `c` to `c'` in which thread `i` takes `n` steps, and in between makes attempts that fail
with an error in `P`. -/
inductive Turns (P : S.Err → Prop) (i : ι) (c : Pool S ι σ α) : ℕ → Pool S ι σ α → Prop
  | refl : Turns P i c 0 c
  | own {n : ℕ} {c' : Pool S ι σ α} {f : Option φ} {t : Thread S α} {s : σ} (h : Turns P i c n c')
      (hf : F f) (h_ok : M.failing f (c'.threads i) c'.state = none)
      (h_step : M.step f (c'.threads i) c'.state = some (t, s)) :
      Turns P i c (n + 1) ⟨Function.update c'.threads i t, s⟩
  | retry {n : ℕ} {c' : Pool S ι σ α} {f : Option φ} {x : S.Err} {t : Thread S α} {s : σ}
      (h : Turns P i c n c') (hf : F f) (h_failing : M.failing f (c'.threads i) c'.state = some x)
      (hx : P x) (h_step : M.step f (c'.threads i) c'.state = some (t, s)) :
      Turns P i c n ⟨Function.update c'.threads i t, s⟩
  | other {n : ℕ} {c' : Pool S ι σ α} {j : ι} {f : Option φ} {t : Thread S α} {s : σ}
      (h : Turns P i c n c') (h_ne : j ≠ i) (hf : F f)
      (h_step : M.step f (c'.threads j) c'.state = some (t, s)) :
      Turns P i c n ⟨Function.update c'.threads j t, s⟩

variable {P : S.Err → Prop} {i : ι} {n : ℕ}

/-- What holds of thread `i` at `c`, and is carried on by its steps and by its failing attempts. -/
theorem Turns.invariant {I : ℕ → Thread S α → Prop} (h : Turns M F P i c n c') (h₀ : I 0 (c.threads i))
    (h_own : ∀ n f t s t' s', I n t → M.failing f t s = none → M.step f t s = some (t', s') → I (n + 1) t')
    (h_retry : ∀ n op k e x, I n ⟨.spin op k, e⟩ → P x → I n ⟨.spin op k, x⟩) :
    I n (c'.threads i) := by
  induction h with
  | refl => exact h₀
  | own h hf h_ok h_step ih =>
    dsimp only
    rw [Function.update_self]
    exact h_own _ _ _ _ _ _ ih h_ok h_step
  | @retry n c' f x t s h hf h_failing hx h_step ih =>
    dsimp only
    rw [Function.update_self]
    obtain ⟨op, k, h_prog, h_stay⟩ := Machine.step_of_failing h_failing
    obtain ⟨rfl, -⟩ := Prod.mk.inj (Option.some.inj (h_step.symm.trans h_stay))
    have h_now : c'.threads i = ⟨.spin op k, (c'.threads i).err⟩ := by rw [← h_prog]
    rw [h_now] at ih
    exact h_retry n op k _ x ih hx
  | other h h_ne hf h_step ih =>
    dsimp only
    rw [Function.update_of_ne h_ne.symm]
    exact ih

/-- One more step of thread `i`, as `play` takes it. -/
theorem Turns.play_own (h : Turns M F P i c n c') {f : Option φ} (hf : F f)
    (h_ok : M.failing f (c'.threads i) c'.state = none)
    (h_some : (M.step f (c'.threads i) c'.state).isSome) :
    Turns M F P i c (n + 1) (play M [(i, f)] c') := by
  obtain ⟨⟨t, s⟩, h_step⟩ := Option.isSome_iff_exists.mp h_some
  have h_play : Pool.play M [(i, f)] c' = ⟨Function.update c'.threads i t, s⟩ := by
    simp only [Pool.play, h_step]
  rw [h_play]
  exact .own h hf h_ok h_step

/-- Every run has its number of turns. -/
theorem Reachable.exists_turns (h : Reachable M F c c') (i : ι) :
    ∃ n, Turns M F (fun _ => True) i c n c' := by
  induction h with
  | refl => exact ⟨0, .refl⟩
  | @tail c' _ _ h_step ih =>
    obtain ⟨n, ih⟩ := ih
    obtain ⟨j, f, hf, t', s', hs⟩ := h_step
    by_cases h_eq : j = i
    · subst h_eq
      rcases h_failing : M.failing f (c'.threads j) c'.state with _ | x
      · exact ⟨n + 1, .own ih hf h_failing hs⟩
      · exact ⟨n, .retry ih hf h_failing trivial hs⟩
    · exact ⟨n, .other ih h_eq hf hs⟩

end Pool

end Effect
