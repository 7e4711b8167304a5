import GitlstreeFS.Effect.Run

/-!
# Runs to their end, whatever it is

`Machine.Ends` is a logic for runs under faults in which the postcondition speaks of every way to end: it is
given the outcome, with the error register, the faults that are left and the state. The run may be assumed to
satisfy a condition `A` on its calls (`Machine.meets`), such as that a certain call never fails; a rule for a
call hands this on.

The rules follow the constructors of `Prog`. `ends_seq` is the rule of composition.
-/

namespace Effect

/-- What holds of an outcome, case by case. -/
def Outcome.Split {α : Type} (done : α → Prop) (aborted stuck : Prop) : Outcome α → Prop
  | .done a => done a
  | .aborted => aborted
  | .stuck => stuck

theorem Outcome.split_done {α : Type} (a : α) (done : α → Prop) (aborted stuck : Prop) :
    (Outcome.done a).Split done aborted stuck ↔ done a := Iff.rfl

namespace Machine

variable {S : Signature} {σ φ α β : Type} (M : Machine S σ φ)

/-- Each call of the run satisfies `A`, with the state it is issued in and its result. The attempts of a
`spin` are left out. -/
def meets (A : (c : S.Op) → σ → Except S.Err (S.Val c) → Bool) :
    Prog S α → S.Err → List (Option φ) → σ → Bool
  | .ret _, _, _, _ => true
  | .abort, _, _, _ => true
  | .errno k, e, fs, s => meets A (k e) e fs s
  | .call c k, e, fs, s =>
    A c s (M.exec fs.head?.join c s).1 &&
      meets A (k (M.exec fs.head?.join c s).1) (errnoAfter e (M.exec fs.head?.join c s).1) fs.tail
        (M.exec fs.head?.join c s).2
  | .spin c k, e, fs, s =>
    match M.retry c e fs s with
    | (some v, e', fs', s') => meets A (k v) e' fs' s'
    | (none, _) => true

variable {M} {A : (c : S.Op) → σ → Except S.Err (S.Val c) → Bool} {e : S.Err} {fs : List (Option φ)} {s : σ}

/-- The first part of a sequence meets what the sequence meets. -/
theorem meets_of_bind {p : Prog S β} {f : β → Prog S α} (h : M.meets A (p.bind f) e fs s) :
    M.meets A p e fs s := by
  induction p generalizing e fs s with
  | ret b => rfl
  | abort => rfl
  | errno k ih => exact ih e h
  | call c k ih =>
    rw [Prog.call_bind, meets, Bool.and_eq_true] at h
    rw [meets, Bool.and_eq_true]
    exact ⟨h.1, ih _ h.2⟩
  | spin c k ih =>
    rw [Prog.spin_bind, meets] at h
    rw [meets]
    rcases h_retry : M.retry c e fs s with ⟨_ | v, e', fs', s'⟩
    · rfl
    · rw [h_retry] at h
      exact ih v h

/-- The second part meets it too, where it is reached. -/
theorem meets_rest {p : Prog S β} {f : β → Prog S α} {b : β} {e' : S.Err} {fs' : List (Option φ)} {s' : σ}
    (h : M.meets A (p.bind f) e fs s) (h_run : M.run p e fs s = ⟨.done b, e', fs', s'⟩) :
    M.meets A (f b) e' fs' s' := by
  induction p generalizing e fs s with
  | ret a =>
    obtain ⟨h_done, rfl, rfl, rfl⟩ := Final.mk.inj h_run
    obtain rfl := Outcome.done.inj h_done
    exact h
  | abort => simp at h_run
  | errno k ih => exact ih e h h_run
  | call c k ih =>
    rw [Prog.call_bind, meets, Bool.and_eq_true] at h
    exact ih _ h.2 h_run
  | spin c k ih =>
    rw [Prog.spin_bind, meets] at h
    rw [run] at h_run
    rcases h_retry : M.retry c e fs s with ⟨_ | v, e₁, fs₁, s₁⟩
    · simp [h_retry] at h_run
    · rw [h_retry] at h h_run
      exact ih v h h_run

/-- What the calls of a run without faults always satisfy. -/
theorem meets_nil (hA : ∀ c s, A c s (M.exec none c s).1) (p : Prog S α) (e : S.Err) (s : σ) :
    M.meets A p e [] s := by
  induction p generalizing e s with
  | ret a => rfl
  | abort => rfl
  | errno k ih => exact ih e e s
  | call c k ih =>
    rw [meets, Bool.and_eq_true]
    exact ⟨hA c s, ih _ _ _⟩
  | spin c k ih =>
    have h_faults : ∀ {v e' fs' s'}, M.retry c e [] s = (v, e', fs', s') → fs' = [] := by
      intro v e' fs' s' h
      rw [retry] at h
      split at h <;> exact (Prod.mk.inj (Prod.mk.inj (Prod.mk.inj h).2).2).1.symm
    rw [meets]
    rcases h_retry : M.retry c e [] s with ⟨_ | v, e', fs', s'⟩
    · rfl
    · obtain rfl := h_faults h_retry
      exact ih v e' s'

/-- The run of `p`, if its calls satisfy `A`, ends in a way that `Q` allows. -/
def Ends (M : Machine S σ φ) (A : (c : S.Op) → σ → Except S.Err (S.Val c) → Bool) (p : Prog S α) (e : S.Err)
    (fs : List (Option φ)) (s : σ) (Q : Outcome α → S.Err → List (Option φ) → σ → Prop) : Prop :=
  M.meets A p e fs s →
    Q (M.run p e fs s).outcome (M.run p e fs s).err (M.run p e fs s).faults (M.run p e fs s).state

variable {Q : Outcome α → S.Err → List (Option φ) → σ → Prop}

theorem Ends.mono {p : Prog S α} {Q' : Outcome α → S.Err → List (Option φ) → σ → Prop}
    (h : M.Ends A p e fs s Q) (hQ : ∀ o e' fs' s', Q o e' fs' s' → Q' o e' fs' s') :
    M.Ends A p e fs s Q' :=
  fun h_meets => hQ _ _ _ _ (h h_meets)

theorem ends_ret {a : α} (h : Q (.done a) e fs s) : M.Ends A (.ret a) e fs s Q :=
  fun _ => h

theorem ends_abort (h : Q .aborted e fs s) : M.Ends A (.abort : Prog S α) e fs s Q :=
  fun _ => h

theorem ends_errno {k : S.Err → Prog S α} (h : M.Ends A (k e) e fs s Q) : M.Ends A (.errno k) e fs s Q :=
  h

/-- A call whose result is known. -/
theorem ends_call {c : S.Op} {k : Except S.Err (S.Val c) → Prog S α} {r : Except S.Err (S.Val c)} {s' : σ}
    (hc : M.exec fs.head?.join c s = (r, s'))
    (h : A c s r → M.Ends A (k r) (errnoAfter e r) fs.tail s' Q) : M.Ends A (.call c k) e fs s Q := by
  intro h_meets
  rw [meets, Bool.and_eq_true, hc] at h_meets
  have h_end := h h_meets.1 h_meets.2
  rw [run, hc]
  exact h_end

/-- A `spin` whose attempts are known. -/
theorem ends_spin {c : S.Op} {k : S.Val c → Prog S α} {v : S.Val c} {e' : S.Err} {fs' : List (Option φ)}
    {s' : σ} (hc : M.retry c e fs s = (some v, e', fs', s')) (h : M.Ends A (k v) e' fs' s' Q) :
    M.Ends A (.spin c k) e fs s Q := by
  intro h_meets
  rw [meets, hc] at h_meets
  have h_end := h h_meets
  rw [run, hc]
  exact h_end

theorem ends_spin_stuck {c : S.Op} {k : S.Val c → Prog S α} {e' : S.Err} {fs' : List (Option φ)} {s' : σ}
    (hc : M.retry c e fs s = (none, e', fs', s')) (h : Q .stuck e' fs' s') :
    M.Ends A (.spin c k) e fs s Q := by
  intro _
  rw [run, hc]
  exact h

/-- **The rule of composition**: the second part goes on where the first one returned, and any other end of
the first part is one of the sequence. -/
theorem ends_seq {p : Prog S β} {f : β → Prog S α}
    (h : M.Ends A p e fs s fun o e' fs' s' =>
      o.Split (fun b => M.Ends A (f b) e' fs' s' Q) (Q .aborted e' fs' s') (Q .stuck e' fs' s')) :
    M.Ends A (p.bind f) e fs s Q := by
  intro h_meets
  have h_first := h (meets_of_bind h_meets)
  rw [run_bind]
  rcases h_run : M.run p e fs s with ⟨b | _ | _, e', fs', s'⟩
  · rw [h_run] at h_first
    exact h_first (meets_rest h_meets h_run)
  · rw [h_run] at h_first
    exact h_first
  · rw [h_run] at h_first
    exact h_first

/-- A program that cannot but return, with what its calls preserve. -/
theorem ends_of_total {I : σ → Prop} {P : S.Op → Prop} {p : Prog S α} (h_total : p.Total) (h_calls : p.Calls P)
    (h_exec : ∀ f c s, P c → I s → I (M.exec f c s).2) (hs : I s)
    (hQ : ∀ a e' fs' s', I s' → Q (.done a) e' fs' s') : M.Ends A p e fs s Q := by
  induction p generalizing e fs s with
  | ret a => exact ends_ret (hQ a e fs s hs)
  | abort => exact h_total.elim
  | errno k ih => exact ends_errno (ih e (h_total e) (h_calls e) hs)
  | call c k ih => exact ends_call rfl fun _ => ih _ (h_total _) (h_calls.2 _) (h_exec _ c s h_calls.1 hs)
  | spin c k _ => exact h_total.elim

end Machine

end Effect
