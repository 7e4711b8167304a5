import GitlstreeFS.Effect.Program

/-!
# Sequential runs

`Machine.run` plays a program alone against a state. The faults are dealt from a
schedule, one for each call issued: `none` leaves the call to the state, `some f`
injects `f`, and once the schedule is used up every call is left to the state. A run
under the empty schedule is therefore the run in which calls fail only as the state
makes them fail.

A `spin` that fails with no fault left to deal has failed in a state that its own
failure does not change, so it fails for ever; such a run is `stuck`.

`Machine.Wp` is total correctness for the fault-free run: the program neither aborts
nor gets stuck, and its result satisfies the postcondition. Its rules follow the
constructors of `Prog`.
-/

namespace Effect

/-- How a run ends. -/
inductive Outcome (α : Type) : Type
  | done (a : α)
  | aborted
  | stuck
  deriving DecidableEq, Repr

/-- What a run leaves behind: its outcome, the error register, the faults not yet
dealt and the state. -/
structure Final (S : Signature) (σ φ α : Type) where
  outcome : Outcome α
  err : S.Err
  faults : List (Option φ)
  state : σ

/-- A program that neither aborts nor retries, whatever its calls yield. -/
def Prog.Total {S : Signature} {α : Type} : Prog S α → Prop
  | .ret _ => True
  | .abort => False
  | .errno k => ∀ e, (k e).Total
  | .call _ k => ∀ r, (k r).Total
  | .spin _ _ => False

theorem Prog.Total.bind {S : Signature} {α β : Type} {p : Prog S β} {f : β → Prog S α}
    (h : p.Total) (hf : ∀ b, (f b).Total) : (p.bind f).Total := by
  induction p with
  | ret b => exact hf b
  | abort => exact h.elim
  | errno k ih => exact fun e => ih e (h e)
  | call c k ih => exact fun r => ih r (h r)
  | spin c k _ => exact h.elim

/-- Every call of the program satisfies `P`. -/
def Prog.Calls {S : Signature} {α : Type} (P : S.Op → Prop) : Prog S α → Prop
  | .ret _ => True
  | .abort => True
  | .errno k => ∀ e, (k e).Calls P
  | .call c k => P c ∧ ∀ r, (k r).Calls P
  | .spin c k => P c ∧ ∀ v, (k v).Calls P

theorem Prog.Calls.bind {S : Signature} {α β : Type} {P : S.Op → Prop} {p : Prog S β}
    {f : β → Prog S α} (h : p.Calls P) (hf : ∀ b, (f b).Calls P) : (p.bind f).Calls P := by
  induction p with
  | ret b => exact hf b
  | abort => trivial
  | errno k ih => exact fun e => ih e (h e)
  | call c k ih => exact ⟨h.1, fun r => ih r (h.2 r)⟩
  | spin c k ih => exact ⟨h.1, fun v => ih v (h.2 v)⟩

namespace Machine

variable {S : Signature} {σ φ α β : Type} (M : Machine S σ φ)

/-- Retry `c` until it succeeds, dealing one fault to each attempt. `none` when the
schedule is used up and the state still makes the call fail. -/
def retry (c : S.Op) : S.Err → List (Option φ) → σ →
    Option (S.Val c) × S.Err × List (Option φ) × σ
  | e, [], s =>
    match M.exec none c s with
    | (.ok v, s') => (some v, e, [], s')
    | (.error x, s') => (none, x, [], s')
  | e, f :: fs, s =>
    match M.exec f c s with
    | (.ok v, s') => (some v, e, fs, s')
    | (.error x, s') => retry c x fs s'

/-- The run of a program from an error register, a schedule of faults and a state. -/
def run : Prog S α → S.Err → List (Option φ) → σ → Final S σ φ α
  | .ret a, e, fs, s => ⟨.done a, e, fs, s⟩
  | .abort, e, fs, s => ⟨.aborted, e, fs, s⟩
  | .errno k, e, fs, s => run (k e) e fs s
  | .call c k, e, fs, s =>
    run (k (M.exec fs.head?.join c s).1) (errnoAfter e (M.exec fs.head?.join c s).1) fs.tail
      (M.exec fs.head?.join c s).2
  | .spin c k, e, fs, s =>
    match M.retry c e fs s with
    | (some v, e', fs', s') => run (k v) e' fs' s'
    | (none, e', fs', s') => ⟨.stuck, e', fs', s'⟩

@[simp] theorem run_ret (a : α) (e : S.Err) (fs : List (Option φ)) (s : σ) :
    M.run (.ret a) e fs s = ⟨.done a, e, fs, s⟩ := rfl

@[simp] theorem run_abort (e : S.Err) (fs : List (Option φ)) (s : σ) :
    M.run (.abort : Prog S α) e fs s = ⟨.aborted, e, fs, s⟩ := rfl

@[simp] theorem run_errno (k : S.Err → Prog S α) (e : S.Err) (fs : List (Option φ)) (s : σ) :
    M.run (.errno k) e fs s = M.run (k e) e fs s := rfl

theorem run_call_nil (c : S.Op) (k : Except S.Err (S.Val c) → Prog S α) (e : S.Err) (s : σ) :
    M.run (.call c k) e [] s
      = M.run (k (M.exec none c s).1) (errnoAfter e (M.exec none c s).1) [] (M.exec none c s).2 :=
  rfl

/-- A run of a sequence is the run of its first part, carried on where that part
returned. -/
theorem run_bind (p : Prog S α) (f : α → Prog S β) (e : S.Err) (fs : List (Option φ)) (s : σ) :
    M.run (p.bind f) e fs s =
      match M.run p e fs s with
      | ⟨.done a, e', fs', s'⟩ => M.run (f a) e' fs' s'
      | ⟨.aborted, e', fs', s'⟩ => ⟨.aborted, e', fs', s'⟩
      | ⟨.stuck, e', fs', s'⟩ => ⟨.stuck, e', fs', s'⟩ := by
  induction p generalizing e fs s with
  | ret a => rfl
  | abort => rfl
  | errno k ih => exact ih e e fs s
  | call c k ih => exact ih _ _ _ _
  | spin c k ih =>
    rw [Prog.spin_bind, run, run]
    rcases M.retry c e fs s with ⟨_ | v, e', fs', s'⟩
    · rfl
    · exact ih v e' fs' s'

/-- Once a schedule is used up, a run stays without faults. -/
theorem run_nil_faults (p : Prog S α) (e : S.Err) (s : σ) : (M.run p e [] s).faults = [] := by
  induction p generalizing e s with
  | ret a => rfl
  | abort => rfl
  | errno k ih => exact ih e e s
  | call c k ih => exact ih _ _ _
  | spin c k ih =>
    simp only [run, retry]
    rcases M.exec none c s with ⟨_ | v, s'⟩
    · rfl
    · exact ih v e s'

/-- A `retry` preserves what each attempt preserves. -/
theorem retry_preserves {I : σ → Prop} {c : S.Op} (h_exec : ∀ f s, I s → I (M.exec f c s).2)
    (e : S.Err) (fs : List (Option φ)) {s : σ} (hs : I s) : I (M.retry c e fs s).2.2.2 := by
  induction fs generalizing e s with
  | nil =>
    have h_next := h_exec none s hs
    rw [retry]
    split <;> simp_all
  | cons f fs ih =>
    have h_next := h_exec f s hs
    rw [retry]
    split
    · simp_all
    · next h => exact ih _ (by rwa [h] at h_next)

/-- The last attempt of a `retry` that ends has succeeded, and those before it did nothing. -/
theorem retry_eq_some {c : S.Op} {e e' : S.Err} {fs fs' : List (Option φ)} {s s' : σ}
    {v : S.Val c} (h : M.retry c e fs s = (some v, e', fs', s')) :
    ∃ f, M.exec f c s = (.ok v, s') := by
  induction fs generalizing e with
  | nil =>
    rw [retry] at h
    split at h
    · next v' s₁ h_exec =>
      simp only [Prod.mk.injEq, Option.some.injEq] at h
      obtain ⟨rfl, -, -, rfl⟩ := h
      exact ⟨none, h_exec⟩
    · simp at h
  | cons f fs ih =>
    rw [retry] at h
    split at h
    · next v' s₁ h_exec =>
      simp only [Prod.mk.injEq, Option.some.injEq] at h
      obtain ⟨rfl, -, -, rfl⟩ := h
      exact ⟨f, h_exec⟩
    · next x s₁ h_exec =>
      obtain rfl : s₁ = s := by
        have h_same := M.exec_error f c s x (by rw [h_exec])
        rwa [h_exec] at h_same
      exact ih h

/-- A `retry` that does not end has done nothing. -/
theorem retry_eq_none {c : S.Op} {e e' : S.Err} {fs fs' : List (Option φ)} {s s' : σ}
    (h : M.retry c e fs s = (none, e', fs', s')) : s' = s := by
  induction fs generalizing e with
  | nil =>
    rw [retry] at h
    split at h
    · simp at h
    · next x s₁ h_exec =>
      have h_same := M.exec_error none c s x (by rw [h_exec])
      rw [h_exec] at h_same
      simp only [Prod.mk.injEq] at h
      exact h.2.2.2.symm.trans h_same
  | cons f fs ih =>
    rw [retry] at h
    split at h
    · simp at h
    · next x s₁ h_exec =>
      obtain rfl : s₁ = s := by
        have h_same := M.exec_error f c s x (by rw [h_exec])
        rwa [h_exec] at h_same
      exact ih h

/-- What each of its calls preserves, under any fault, a program preserves. -/
theorem run_preserves {I : σ → Prop} {P : S.Op → Prop} {p : Prog S α}
    (h_exec : ∀ f c s, P c → I s → I (M.exec f c s).2) (hp : p.Calls P) {e : S.Err}
    {fs : List (Option φ)} {s : σ} (hs : I s) : I (M.run p e fs s).state := by
  induction p generalizing e fs s with
  | ret a => exact hs
  | abort => exact hs
  | errno k ih => exact ih e (hp e) hs
  | call c k ih => exact ih _ (hp.2 _) (h_exec _ c s hp.1 hs)
  | spin c k ih =>
    have h_next := M.retry_preserves (fun f s => h_exec f c s hp.1) e fs hs
    rw [run]
    split
    · next h => exact ih _ (hp.2 _) (by rwa [h] at h_next)
    · next h => rwa [h] at h_next

/-! ### Partial correctness under faults -/

/-- Where a run of `p` returns, with whatever faults, its result and final state satisfy `Q`. -/
def Wlp (p : Prog S α) (s : σ) (Q : α → σ → Prop) : Prop :=
  ∀ e fs a, (M.run p e fs s).outcome = .done a → Q a (M.run p e fs s).state

section Partial

variable {M} {s : σ} {Q : α → σ → Prop}

theorem Wlp.mono {p : Prog S α} {Q' : α → σ → Prop} (h : M.Wlp p s Q) (hQ : ∀ a s', Q a s' → Q' a s') :
    M.Wlp p s Q' :=
  fun e fs a h_done => hQ _ _ (h e fs a h_done)

theorem wlp_ret {a : α} (h : Q a s) : M.Wlp (.ret a) s Q := by
  rintro e fs a' h_done
  obtain rfl : a = a' := by simpa using h_done
  exact h

theorem wlp_abort : M.Wlp (.abort : Prog S α) s Q := by
  intro e fs a h_done
  simp at h_done

theorem wlp_call {c : S.Op} {k : Except S.Err (S.Val c) → Prog S α}
    (h : ∀ f, M.Wlp (k (M.exec f c s).1) (M.exec f c s).2 Q) : M.Wlp (.call c k) s Q :=
  fun _ fs a h_done => h fs.head?.join _ fs.tail a h_done

theorem wlp_spin {c : S.Op} {k : S.Val c → Prog S α}
    (h : ∀ f v s', M.exec f c s = (.ok v, s') → M.Wlp (k v) s' Q) : M.Wlp (.spin c k) s Q := by
  intro e fs a h_done
  rw [run] at h_done ⊢
  rcases h_eq : M.retry c e fs s with ⟨_ | v, e', fs', s'⟩
  · simp [h_eq] at h_done
  · rw [h_eq] at h_done
    obtain ⟨f, h_exec⟩ := M.retry_eq_some h_eq
    exact h f v s' h_exec e' fs' a h_done

theorem wlp_bind {p : Prog S β} {k : β → Prog S α} (h : M.Wlp p s fun b s' => M.Wlp (k b) s' Q) :
    M.Wlp (p.bind k) s Q := by
  intro e fs a h_done
  have h_first := h e fs
  rw [run_bind] at h_done ⊢
  rcases h_run : M.run p e fs s with ⟨_ | _ | _, e', fs', s'⟩
  · rw [h_run] at h_done h_first
    exact h_first _ rfl e' fs' a h_done
  · simp [h_run] at h_done
  · simp [h_run] at h_done

end Partial

/-! ### Total correctness of the fault-free run -/

/-- The fault-free run of `p` returns, and its result, error register and final state
satisfy `Q`. -/
def Wp (p : Prog S α) (e : S.Err) (s : σ) (Q : α → S.Err → σ → Prop) : Prop :=
  ∃ a, (M.run p e [] s).outcome = .done a ∧ Q a (M.run p e [] s).err (M.run p e [] s).state

variable {M} {Q Q' : α → S.Err → σ → Prop}

theorem Wp.mono {p : Prog S α} {e : S.Err} {s : σ} (h : M.Wp p e s Q)
    (hQ : ∀ a e' s', Q a e' s' → Q' a e' s') : M.Wp p e s Q' := by
  obtain ⟨a, ha, hq⟩ := h
  exact ⟨a, ha, hQ _ _ _ hq⟩

@[simp] theorem wp_ret (a : α) (e : S.Err) (s : σ) : M.Wp (.ret a) e s Q ↔ Q a e s := by
  refine ⟨?_, fun h => ⟨a, rfl, h⟩⟩
  rintro ⟨a', ha, h⟩
  obtain rfl : a = a' := by simpa using ha
  exact h

@[simp] theorem wp_abort (e : S.Err) (s : σ) : ¬ M.Wp (.abort : Prog S α) e s Q := by
  rintro ⟨a, ha, -⟩
  exact absurd ha (by simp)

@[simp] theorem wp_errno (k : S.Err → Prog S α) (e : S.Err) (s : σ) :
    M.Wp (.errno k) e s Q ↔ M.Wp (k e) e s Q := Iff.rfl

theorem wp_call (c : S.Op) (k : Except S.Err (S.Val c) → Prog S α) (e : S.Err) (s : σ) :
    M.Wp (.call c k) e s Q ↔
      M.Wp (k (M.exec none c s).1) (errnoAfter e (M.exec none c s).1) (M.exec none c s).2 Q :=
  Iff.rfl

/-- A call whose result is known. -/
theorem wp_call_of_exec {c : S.Op} {k : Except S.Err (S.Val c) → Prog S α} {e : S.Err} {s : σ}
    {r : Except S.Err (S.Val c)} {s' : σ} (hc : M.exec none c s = (r, s'))
    (h : M.Wp (k r) (errnoAfter e r) s' Q) : M.Wp (.call c k) e s Q := by
  rw [wp_call, hc]
  exact h

theorem wp_spin_of_exec {c : S.Op} {k : S.Val c → Prog S α} {e : S.Err} {s : σ}
    {v : S.Val c} {s' : σ} (hc : M.exec none c s = (.ok v, s'))
    (h : M.Wp (k v) e s' Q) : M.Wp (.spin c k) e s Q := by
  have h_run : M.run (.spin c k) e [] s = M.run (k v) e [] s' := by
    simp only [run, retry, hc]
  unfold Wp
  rw [h_run]
  exact h

/-- The rule of composition. -/
theorem wp_bind {p : Prog S β} {f : β → Prog S α} {e : S.Err} {s : σ} :
    M.Wp (p.bind f) e s Q ↔ M.Wp p e s fun b e' s' => M.Wp (f b) e' s' Q := by
  have h_nil := M.run_nil_faults p e s
  unfold Wp
  rw [run_bind]
  rcases h : M.run p e [] s with ⟨o, e', fs', s'⟩
  obtain rfl : fs' = [] := by rw [h] at h_nil; exact h_nil
  cases o with
  | done b => simp
  | aborted => simp
  | stuck => simp

/-- The fault-free run of `p` returns. -/
def Returns (M : Machine S σ φ) (p : Prog S α) (e : S.Err) (s : σ) : Prop :=
  M.Wp p e s fun _ _ _ => True

theorem Wp.returns {p : Prog S α} {e : S.Err} {s : σ} (h : M.Wp p e s Q) : M.Returns p e s :=
  h.mono fun _ _ _ _ => trivial

theorem returns_of_total {p : Prog S α} (h : p.Total) (e : S.Err) (s : σ) : M.Returns p e s := by
  induction p generalizing e s with
  | ret a => exact ⟨a, rfl, trivial⟩
  | abort => exact h.elim
  | errno k ih => exact ih e (h e) e s
  | call c k ih => exact ih _ (h _) _ _
  | spin c k _ => exact h.elim

/-- A program that returns, followed by one that cannot but return. -/
theorem Returns.seq {p : Prog S β} {f : β → Prog S α} {e : S.Err} {s : σ} (h : M.Returns p e s)
    (hf : ∀ b, (f b).Total) : M.Returns (p.bind f) e s :=
  wp_bind.mpr (h.mono fun b _ _ _ => returns_of_total (hf b) _ _)

/-- A sequence returns only if its first part does. -/
theorem Returns.of_seq {p : Prog S β} {f : β → Prog S α} {e : S.Err} {s : σ}
    (h : M.Returns (p.bind f) e s) : M.Returns p e s :=
  (wp_bind.mp h).returns

end Machine

end Effect
