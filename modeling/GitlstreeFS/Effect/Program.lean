import Mathlib.Logic.Function.Basic

/-!
# Programs over a signature of calls

A C function that talks to the kernel is a tree of calls: it issues a call, looks
at what came back, and goes on from there. `Prog S α` is that tree over a
signature `S`, with the three things such code does besides calling:

* it may `abort`, which ends the process and runs no destructor;
* it may read `errno`, the register in which the *last failing call* left its
  error, and which a successful call leaves alone;
* it may `spin`, that is issue one call again and again until it succeeds.

The tree says nothing about what a call does. A `Machine` gives that meaning: the
state-determined result of a call, and the results a fault puts in its place.
One tree therefore has several readings, a sequential run (`Effect.Run`) and a
thread among others (`Effect.RelyGuarantee`), and a function is transcribed once
for all of them.
-/

namespace Effect

/-- The vocabulary of a program: its calls, what a call yields when it succeeds, and
the errors it may fail with. -/
structure Signature where
  Op : Type
  Val : Op → Type
  Err : Type

/-- A program over the calls of `S` that yields an `α`. -/
inductive Prog (S : Signature) (α : Type) : Type
  | ret (a : α)
  | abort
  | errno (k : S.Err → Prog S α)
  | call (c : S.Op) (k : Except S.Err (S.Val c) → Prog S α)
  | spin (c : S.Op) (k : S.Val c → Prog S α)

/-- The error register after a call: a failing call writes it, a successful one does not. -/
def errnoAfter {ε β : Type} (e : ε) : Except ε β → ε
  | .ok _ => e
  | .error x => x

@[simp] theorem errnoAfter_ok {ε β : Type} (e : ε) (b : β) :
    errnoAfter e (.ok b : Except ε β) = e := rfl

@[simp] theorem errnoAfter_error {ε β : Type} (e x : ε) :
    errnoAfter e (.error x : Except ε β) = x := rfl

namespace Prog

variable {S : Signature} {α β γ : Type}

/-- Sequencing: graft `f` onto every returning leaf. -/
def bind : Prog S α → (α → Prog S β) → Prog S β
  | ret a, f => f a
  | abort, _ => abort
  | errno k, f => errno fun e => (k e).bind f
  | call c k, f => call c fun r => (k r).bind f
  | spin c k, f => spin c fun v => (k v).bind f

instance : Monad (Prog S) where
  pure := ret
  bind := bind

@[simp] theorem pure_eq (a : α) : (pure a : Prog S α) = ret a := rfl

@[simp] theorem bind_eq (p : Prog S α) (f : α → Prog S β) : p >>= f = p.bind f := rfl

@[simp] theorem ret_bind (a : α) (f : α → Prog S β) : (ret a).bind f = f a := rfl

@[simp] theorem abort_bind (f : α → Prog S β) : (abort : Prog S α).bind f = abort := rfl

@[simp] theorem errno_bind (k : S.Err → Prog S α) (f : α → Prog S β) :
    (errno k).bind f = errno fun e => (k e).bind f := rfl

@[simp] theorem call_bind (c : S.Op) (k : Except S.Err (S.Val c) → Prog S α)
    (f : α → Prog S β) : (call c k).bind f = call c fun r => (k r).bind f := rfl

@[simp] theorem spin_bind (c : S.Op) (k : S.Val c → Prog S α) (f : α → Prog S β) :
    (spin c k).bind f = spin c fun v => (k v).bind f := rfl

theorem bind_ret (p : Prog S α) : p.bind ret = p := by
  induction p with
  | ret a => rfl
  | abort => rfl
  | errno k ih => exact congrArg errno (funext ih)
  | call c k ih => exact congrArg (call c) (funext ih)
  | spin c k ih => exact congrArg (spin c) (funext ih)

theorem bind_assoc (p : Prog S α) (f : α → Prog S β) (g : β → Prog S γ) :
    (p.bind f).bind g = p.bind fun a => (f a).bind g := by
  induction p with
  | ret a => rfl
  | abort => rfl
  | errno k ih => exact congrArg errno (funext ih)
  | call c k ih => exact congrArg (call c) (funext ih)
  | spin c k ih => exact congrArg (spin c) (funext ih)

instance : LawfulMonad (Prog S) :=
  LawfulMonad.mk' _ (fun p => bind_ret p) (fun _ _ => rfl) bind_assoc

/-- What a program yields that has nothing left to do. -/
def value? : Prog S α → Option α
  | ret a => some a
  | _ => none

theorem eq_ret_of_value? {p : Prog S α} {a : α} (h : p.value? = some a) : p = ret a := by
  cases p <;> simp_all [value?]

/-- Read the error register. -/
def getErrno : Prog S S.Err := errno ret

end Prog

/-- The meaning of the calls of `S` on a state `σ`. `exec none` is the result the state
determines; `exec (some f)` is the result under the fault `f`. A failing call leaves the
state as it was. -/
structure Machine (S : Signature) (σ φ : Type) where
  exec : Option φ → (c : S.Op) → σ → Except S.Err (S.Val c) × σ
  /-- A failing call has no effect. -/
  exec_error : ∀ f c s x, (exec f c s).1 = .error x → (exec f c s).2 = s

end Effect
