import GitlstreeFS.Effect.Run
import Mathlib.Logic.Relation

/-!
# Interleaved threads and rely-guarantee reasoning

A `Pool` is a family of threads over one shared state; one step runs one thread up to
and including its next call. Calls are atomic and nothing else is: a thread may be
overtaken between any two of them. Each thread keeps an error register of its own. Which
faults may be injected is a parameter `F`; where it holds of `none` only, calls fail only as
the state makes them fail.

`Machine.Safe F A R G Q` is the rely-guarantee judgment of one thread. Under
interference by `R`, every call the thread issues makes a transition in `G`, the thread
aborts only if `A` allows it, and when it returns `a` the postcondition `Q a` holds and goes
on holding. The judgment follows the constructors of `Prog`, so a thread is verified call by
call, and `safe_bind` composes the judgments of its functions.

`Pool.Reachable.safe` is the soundness of the method: if the guarantee of each thread
is contained in the rely of every other one, all judgments hold in every reachable
configuration, whatever the schedule, and `Pool.Reachable.invariant` carries a state
invariant along that each guarantee preserves.
-/

namespace Effect

open Relation

/-- A thread: the program still to run and the thread's error register. -/
structure Thread (S : Signature) (α : Type) where
  prog : Prog S α
  err : S.Err

namespace Machine

variable {S : Signature} {σ φ α β : Type} (M : Machine S σ φ)

/-- The next step of a thread under the fault `f`. A returned or aborted thread has none, a
failing `spin` stays where it is. -/
def step (f : Option φ) : Thread S α → σ → Option (Thread S α × σ)
  | ⟨.ret _, _⟩, _ => none
  | ⟨.abort, _⟩, _ => none
  | ⟨.errno k, e⟩, s => some (⟨k e, e⟩, s)
  | ⟨.call c k, e⟩, s =>
    some (⟨k (M.exec f c s).1, errnoAfter e (M.exec f c s).1⟩, (M.exec f c s).2)
  | ⟨.spin c k, e⟩, s =>
    match M.exec f c s with
    | (.ok v, s') => some (⟨k v, e⟩, s')
    | (.error x, s') => some (⟨.spin c k, x⟩, s')

/-! ### The judgment of one thread -/

variable (F : Option φ → Prop) (A : Prop) (R G : σ → σ → Prop)

/-- Under interference by `R` and faults in `F`, the thread keeps to `G`, aborts only if `A`
holds, and returns only where `Q` holds stably. -/
def Safe (Q : α → σ → Prop) : Prog S α → S.Err → σ → Prop
  | .ret a, _, s => ∀ s', ReflTransGen R s s' → Q a s'
  | .abort, _, _ => A
  | .errno k, e, s => Safe Q (k e) e s
  | .call c k, e, s => ∀ s', ReflTransGen R s s' → ∀ f, F f →
      G s' (M.exec f c s').2 ∧
        Safe Q (k (M.exec f c s').1) (errnoAfter e (M.exec f c s').1) (M.exec f c s').2
  | .spin c k, _, s => ∀ s', ReflTransGen R s s' → ∀ f, F f →
      G s' (M.exec f c s').2 ∧
        ∀ v, (M.exec f c s').1 = .ok v → ∀ e', Safe Q (k v) e' (M.exec f c s').2

variable {M F A R G} {Q Q' : α → σ → Prop}

/-- Interference does not disturb the judgment. -/
theorem Safe.stable {p : Prog S α} {e : S.Err} {s s' : σ} (h : M.Safe F A R G Q p e s)
    (hR : R s s') : M.Safe F A R G Q p e s' := by
  induction p generalizing e with
  | ret a => exact fun t ht => h t (ht.head hR)
  | abort => exact h
  | errno k ih => exact ih e h
  | call c k ih => exact fun t ht => h t (ht.head hR)
  | spin c k ih => exact fun t ht => h t (ht.head hR)

theorem Safe.mono {p : Prog S α} {e : S.Err} {s : σ} (h : M.Safe F A R G Q p e s)
    (hQ : ∀ a s', Q a s' → Q' a s') : M.Safe F A R G Q' p e s := by
  induction p generalizing e s with
  | ret a => exact fun t ht => hQ a t (h t ht)
  | abort => exact h
  | errno k ih => exact ih e h
  | call c k ih => exact fun t ht f hf => ⟨(h t ht f hf).1, ih _ (h t ht f hf).2⟩
  | spin c k ih =>
    exact fun t ht f hf => ⟨(h t ht f hf).1, fun v hv e' => ih v ((h t ht f hf).2 v hv e')⟩

/-! ### Rules

Each rule takes an assertion that interference preserves and that holds before the
call. -/

/-- `P` is not disturbed by interference. -/
def StableUnder (R : σ → σ → Prop) (P : σ → Prop) : Prop :=
  ∀ s s', P s → R s s' → P s'

theorem StableUnder.star {P : σ → Prop} (hP : StableUnder R P) {s s' : σ} (h : P s)
    (hs : ReflTransGen R s s') : P s' := by
  induction hs with
  | refl => exact h
  | tail _ hR ih => exact hP _ _ ih hR

theorem safe_ret {P : σ → Prop} (hP : StableUnder R P) {a : α} {e : S.Err} {s : σ} (h : P s)
    (hQ : ∀ s', P s' → Q a s') : M.Safe F A R G Q (.ret a) e s :=
  fun _ ht => hQ _ (hP.star h ht)

theorem safe_call {P : σ → Prop} (hP : StableUnder R P) {c : S.Op}
    {k : Except S.Err (S.Val c) → Prog S α} {e : S.Err} {s : σ} (h : P s)
    (hk : ∀ s', P s' → ∀ f, F f → G s' (M.exec f c s').2 ∧
      M.Safe F A R G Q (k (M.exec f c s').1) (errnoAfter e (M.exec f c s').1)
        (M.exec f c s').2) :
    M.Safe F A R G Q (.call c k) e s :=
  fun _ ht => hk _ (hP.star h ht)

theorem safe_spin {P : σ → Prop} (hP : StableUnder R P) {c : S.Op}
    {k : S.Val c → Prog S α} {e : S.Err} {s : σ} (h : P s)
    (hk : ∀ s', P s' → ∀ f, F f → G s' (M.exec f c s').2 ∧
      ∀ v, (M.exec f c s').1 = .ok v → ∀ e', M.Safe F A R G Q (k v) e' (M.exec f c s').2) :
    M.Safe F A R G Q (.spin c k) e s :=
  fun _ ht => hk _ (hP.star h ht)

/-- The rule of composition. The first part may return with any error register. -/
theorem safe_bind {p : Prog S β} {f : β → Prog S α} {Q₁ : β → σ → Prop} {e : S.Err} {s : σ}
    (hp : M.Safe F A R G Q₁ p e s)
    (hf : ∀ b e' s', Q₁ b s' → M.Safe F A R G Q (f b) e' s') :
    M.Safe F A R G Q (p.bind f) e s := by
  induction p generalizing e s with
  | ret b => exact hf b e s (hp s .refl)
  | abort => exact hp
  | errno k ih => exact ih e hp
  | call c k ih => exact fun t ht x hx => ⟨(hp t ht x hx).1, ih _ (hp t ht x hx).2⟩
  | spin c k ih =>
    exact fun t ht x hx => ⟨(hp t ht x hx).1, fun v hv e' => ih v ((hp t ht x hx).2 v hv e')⟩

/-- One step of a safe thread keeps to its guarantee and leaves it safe. -/
theorem Safe.step {f : Option φ} {t t' : Thread S α} {s s' : σ} (hG : ∀ s, G s s) (hf : F f)
    (h : M.Safe F A R G Q t.prog t.err s) (hs : M.step f t s = some (t', s')) :
    G s s' ∧ M.Safe F A R G Q t'.prog t'.err s' := by
  rcases t with ⟨p, e⟩
  cases p with
  | ret a => simp [Machine.step] at hs
  | abort => simp [Machine.step] at hs
  | errno k =>
    simp only [Machine.step, Option.some.injEq, Prod.mk.injEq] at hs
    obtain ⟨rfl, rfl⟩ := hs
    exact ⟨hG s, h⟩
  | call c k =>
    simp only [Machine.step, Option.some.injEq, Prod.mk.injEq] at hs
    obtain ⟨rfl, rfl⟩ := hs
    exact h s .refl f hf
  | spin c k =>
    have h_now := h s .refl f hf
    have h_frame := M.exec_error f c s
    rcases hx : M.exec f c s with ⟨x | v, s₁⟩
    · -- a failed attempt changes nothing, so the judgment is the one it started from
      simp only [Machine.step, hx, Option.some.injEq, Prod.mk.injEq] at hs
      obtain ⟨rfl, rfl⟩ := hs
      obtain rfl : s₁ = s := by simpa [hx] using h_frame x (by rw [hx])
      exact ⟨hG s₁, h⟩
    · simp only [Machine.step, hx, Option.some.injEq, Prod.mk.injEq] at hs
      obtain ⟨rfl, rfl⟩ := hs
      rw [hx] at h_now
      exact ⟨h_now.1, h_now.2 v rfl _⟩

end Machine

namespace Machine

variable {S : Signature} {σ φ α : Type} {M : Machine S σ φ} {A : Prop} {R G : σ → σ → Prop}

/-- A safe thread that runs alone returns only where its postcondition holds. -/
theorem Safe.run {Q : α → σ → Prop} {p : Prog S α} {e : S.Err} {s : σ}
    (h : M.Safe (fun _ => True) A R G Q p e s) {fs : List (Option φ)} {a : α}
    (h_done : (M.run p e fs s).outcome = .done a) : Q a (M.run p e fs s).state := by
  induction p generalizing e fs s with
  | ret b =>
    obtain rfl := Outcome.done.inj h_done
    exact h s .refl
  | abort => cases h_done
  | errno k ih => exact ih e h h_done
  | call c k ih => exact ih _ (h s .refl _ trivial).2 h_done
  | spin c k ih =>
    rw [Machine.run] at h_done ⊢
    split at h_done
    · next v e' fs' s' h_retry =>
      obtain ⟨f, h_exec⟩ := M.retry_eq_some h_retry
      have h_next := (h s .refl f trivial).2 v (by rw [h_exec]) e'
      rw [h_exec] at h_next
      exact ih v h_next h_done
    · cases h_done

end Machine

/-! ### Pools of threads -/

/-- A configuration: the threads and the state they share. -/
structure Pool (S : Signature) (ι σ α : Type) where
  threads : ι → Thread S α
  state : σ

namespace Pool

variable {S : Signature} {ι σ φ α : Type} [DecidableEq ι] (M : Machine S σ φ)
  (F : Option φ → Prop)

/-- One step of the pool: some thread takes its next step, under some fault. -/
inductive Step : Pool S ι σ α → Pool S ι σ α → Prop
  | mk (c : Pool S ι σ α) (i : ι) (f : Option φ) (hf : F f) (t' : Thread S α) (s' : σ)
      (h : M.step f (c.threads i) c.state = some (t', s')) :
      Step c ⟨Function.update c.threads i t', s'⟩

/-- The configurations some schedule leads to. -/
def Reachable (c c' : Pool S ι σ α) : Prop :=
  ReflTransGen (Step M F) c c'

variable {M F} {A : Prop} {R G : ι → σ → σ → Prop} {Q : ι → α → σ → Prop}
  {c c' : Pool S ι σ α}

/-- **Soundness of rely-guarantee.** If what one thread guarantees is what every other
one relies on, the judgments of all threads hold in every reachable configuration. -/
theorem Reachable.safe (hG : ∀ i s, G i s s)
    (hRG : ∀ i j, i ≠ j → ∀ s s', G i s s' → R j s s') (hr : Reachable M F c c')
    (h : ∀ i, M.Safe F A (R i) (G i) (Q i) (c.threads i).prog (c.threads i).err c.state) :
    ∀ i, M.Safe F A (R i) (G i) (Q i) (c'.threads i).prog (c'.threads i).err c'.state := by
  induction hr with
  | refl => exact h
  | tail _ hstep ih =>
    obtain ⟨i, f, hf, t', s', hs⟩ := hstep
    obtain ⟨h_guar, h_next⟩ := (ih i).step (hG i) hf hs
    intro j
    by_cases hij : j = i
    · subst hij
      simpa using h_next
    · simpa [hij] using (ih j).stable (hRG i j (Ne.symm hij) _ _ h_guar)

/-- Every step of a reachable configuration keeps to the guarantee of the thread that
takes it. -/
theorem Reachable.invariant (hG : ∀ i s, G i s s)
    (hRG : ∀ i j, i ≠ j → ∀ s s', G i s s' → R j s s') (hr : Reachable M F c c')
    (h : ∀ i, M.Safe F A (R i) (G i) (Q i) (c.threads i).prog (c.threads i).err c.state)
    {I : σ → Prop} (hI : ∀ i s s', I s → G i s s' → I s') (h₀ : I c.state) : I c'.state := by
  induction hr with
  | refl => exact h₀
  | tail hr' hstep ih =>
    obtain ⟨i, f, hf, t', s', hs⟩ := hstep
    have h_safe := Reachable.safe hG hRG hr' h i
    exact hI i _ _ ih (h_safe.step (hG i) hf hs).1

/-- A thread that has returned `a` is where `Q a` holds. -/
theorem Reachable.result (hG : ∀ i s, G i s s)
    (hRG : ∀ i j, i ≠ j → ∀ s s', G i s s' → R j s s') (hr : Reachable M F c c')
    (h : ∀ i, M.Safe F A (R i) (G i) (Q i) (c.threads i).prog (c.threads i).err c.state)
    {i : ι} {a : α} (h_ret : (c'.threads i).prog = .ret a) : Q i a c'.state := by
  have h_safe := Reachable.safe hG hRG hr h i
  rw [h_ret] at h_safe
  exact h_safe _ .refl

/-! ### Schedules -/

/-- The configuration after the threads of `schedule` have taken a step each, in that order and
under the given faults. A thread that has none is passed over. -/
def play (M : Machine S σ φ) : List (ι × Option φ) → Pool S ι σ α → Pool S ι σ α
  | [], c => c
  | (i, f) :: schedule, c =>
    match M.step f (c.threads i) c.state with
    | some (t, s) => play M schedule ⟨Function.update c.threads i t, s⟩
    | none => play M schedule c

theorem reachable_play {schedule : List (ι × Option φ)} (h : ∀ x ∈ schedule, F x.2)
    (c : Pool S ι σ α) : Reachable M F c (play M schedule c) := by
  induction schedule generalizing c with
  | nil => exact .refl
  | cons x schedule ih =>
    have h_rest := ih fun y hy => h y (List.mem_cons_of_mem _ hy)
    rw [play]
    split
    · next t s h_step => exact .head (.mk c x.1 x.2 (h x (List.mem_cons_self ..)) t s h_step) (h_rest _)
    · exact h_rest c

end Pool

end Effect
