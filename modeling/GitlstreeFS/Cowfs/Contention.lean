import GitlstreeFS.Cowfs.Handler
import GitlstreeFS.Effect.Restricted

/-!
# Creating a file that others create at the same time

`MaybeBreakHardlink` opens the file before it takes the lock and looks at the `errno` of that call only
afterwards. While another thread holds the lock, the attempts to take it fail with `EEXIST`, and then this
is what is found in `errno`: the file is taken to be unreadable instead of missing, and the request is
answered with `EIO`.

A `Crowd` is a family of threads that open one path for writing. `Survives` is the claim about one of them
whose first `openat` finds the path missing, for the runs in which its attempts to take the lock fail with
the errors in `P` only. `survives` proves it for `ENOENT`, and `not_survives_twoCreate` refutes it for
all errors.

What is left to do of such a request is a straight line, `Stage`, which each step of the thread takes one
further.
-/

namespace GitlstreeFS.Cowfs

open Effect Posix

/-! ### Requests -/

/-- A request that opens a file. -/
inductive Opening where
  | open' (fl : OpenFlags)
  | create (fl : OpenFlags) (mode : Mode)
  deriving DecidableEq

namespace Opening

def flags : Opening → OpenFlags
  | .open' fl => fl
  | .create fl _ => fl

/-- The second `openat`, once the link is broken. -/
def openFd (p : Path Tree) : Opening → Proc Tree (Except Errno OpenFile)
  | .open' fl => Ptfs.open' p fl
  | .create fl mode => Ptfs.create p fl mode

/-- `CowFileSystemHandler::Open` and `Create`. -/
def run (sha1 : Bytes → Bytes) (tid : ℕ) (p : Path Tree) :
    Opening → Proc Tree (Except Errno CowFileHandle)
  | .open' fl => Cowfs.open' sha1 tid p fl
  | .create fl mode => Cowfs.create sha1 tid p fl mode

/-- What the request does with the value `MaybeBreakHardlink` returns. -/
def afterBreak (p : Path Tree) (o : Opening) (broken : Bool) : Proc Tree (Except Errno CowFileHandle) :=
  if broken then do return (← o.openFd p).map (CowFileHandle.mk p)
  else return .error Errno.EIO

variable {sha1 : Bytes → Bytes} {tid : ℕ} {p : Path Tree} {o : Opening}

theorem run_eq (h : o.flags.writes) :
    o.run sha1 tid p = maybeBreakHardlink sha1 tid p >>= o.afterBreak p := by
  cases o with
  | open' fl => exact if_pos h
  | create fl mode => exact if_pos h

/-- The second `openat` is one call, and a failure of it is answered with `ENOENT`. -/
theorem afterBreak_true (p : Path Tree) (o : Opening) : ∃ op k, o.afterBreak p true = .call op k ∧
    ∀ r, ∃ a, k r = .ret a ∧ a ≠ .error Errno.EIO := by
  cases o with
  | open' fl =>
    refine ⟨_, _, rfl, fun r => ?_⟩
    cases r with
    | error x => exact ⟨_, rfl, by simp [Except.map]⟩
    | ok fd => exact ⟨_, rfl, by simp [Except.map]⟩
  | create fl mode =>
    refine ⟨_, _, rfl, fun r => ?_⟩
    cases r with
    | error x => exact ⟨_, rfl, by simp [Except.map]⟩
    | ok fd => exact ⟨_, rfl, by simp [Except.map]⟩

/-- The rest of the request with the lock taken: `errno` is looked at now. -/
def holding (p : Path Tree) (o : Opening) : Proc Tree (Except Errno CowFileHandle) :=
  .errno fun e => .call (.rmdirat (lockName p)) fun _ => o.afterBreak p (decide (e = .ENOENT))

/-- The rest of the request after a first `openat` that failed. -/
def waiting (p : Path Tree) (o : Opening) : Proc Tree (Except Errno CowFileHandle) :=
  .spin (.mkdirat (lockName p) 0o700) fun _ => o.holding p

/-- The first `openat` of a request. -/
theorem step_run (h : o.flags.writes) {e x : Errno} {f : Option Fault} {s : FileSystem Tree}
    (h_open : ((machine Tree).exec f (.openat p .rdonly 0) s).1 = .error x) :
    (machine Tree).step f ⟨o.run sha1 tid p, e⟩ s = some (⟨o.waiting p, x⟩, s) := by
  have h_frame := (machine Tree).exec_error f _ s x h_open
  rw [run_eq h]
  change some (_, ((machine Tree).exec f (.openat p .rdonly 0) s).2) = _
  rw [h_frame]
  simp only [h_open]
  rfl

end Opening

/-! ### The stages of a request -/

/-- The thread is `n` steps beyond its first `openat`, which has failed with `ENOENT`, and so have all
attempts to take the lock that failed. -/
inductive Stage (p : Path Tree) (o : Opening) :
    ℕ → Thread (sig Tree) (Except Errno CowFileHandle) → Prop
  | waiting : Stage p o 0 ⟨o.waiting p, .ENOENT⟩
  | holding : Stage p o 1 ⟨o.holding p, .ENOENT⟩
  | decided (e : Errno) : Stage p o 2 ⟨.call (.rmdirat (lockName p)) fun _ => o.afterBreak p true, e⟩
  | broken (e : Errno) : Stage p o 3 ⟨o.afterBreak p true, e⟩
  | answered (a : Except Errno CowFileHandle) (e : Errno) (h : a ≠ .error Errno.EIO) : Stage p o 4 ⟨.ret a, e⟩

namespace Stage

variable {p : Path Tree} {o : Opening} {n : ℕ} {t t' : Thread (sig Tree) (Except Errno CowFileHandle)}

/-- A step that is not a failing attempt leads to the next stage. -/
theorem step (h : Stage p o n t) {f : Option Fault} {s s' : FileSystem Tree}
    (h_ok : (machine Tree).failing f t s = none) (h_step : (machine Tree).step f t s = some (t', s')) :
    Stage p o (n + 1) t' := by
  cases h with
  | waiting =>
    -- the attempt succeeds, and a successful call leaves `errno` alone
    rcases h_exec : (machine Tree).exec f (.mkdirat (lockName p) 0o700) s with ⟨x | v, s₁⟩
    · simp only [Machine.failing, Opening.waiting, h_exec, reduceCtorEq] at h_ok
    · simp only [Machine.step, Opening.waiting, h_exec, Option.some.injEq, Prod.mk.injEq] at h_step
      rw [← h_step.1]
      exact .holding
  | holding =>
    simp only [Machine.step, Opening.holding, Option.some.injEq, Prod.mk.injEq] at h_step
    rw [← h_step.1]
    exact .decided .ENOENT
  | decided e =>
    simp only [Machine.step, Option.some.injEq, Prod.mk.injEq] at h_step
    rw [← h_step.1]
    exact .broken _
  | broken e =>
    obtain ⟨op, k, h_call, h_ret⟩ := o.afterBreak_true p
    rw [h_call] at h_step
    simp only [Machine.step, Option.some.injEq, Prod.mk.injEq] at h_step
    obtain ⟨a, h_prog, h_ne⟩ := h_ret ((machine Tree).exec f op s).1
    rw [← h_step.1, h_prog]
    exact .answered a _ h_ne
  | answered a e h => simp [Machine.step] at h_step

/-- An attempt to take the lock that fails with `ENOENT` changes nothing. -/
theorem retry {op : SysCall Tree} {k : op.Val → Proc Tree (Except Errno CowFileHandle)} {e x : Errno}
    (h : Stage p o n ⟨.spin op k, e⟩) (hx : x = .ENOENT) : Stage p o n ⟨.spin op k, x⟩ := by
  obtain rfl := hx
  generalize h_t : (⟨.spin op k, e⟩ : Thread (sig Tree) (Except Errno CowFileHandle)) = t at h
  cases h with
  | waiting =>
    rw [show (⟨.spin op k, .ENOENT⟩ : Thread (sig Tree) (Except Errno CowFileHandle)) =
      ⟨o.waiting p, .ENOENT⟩ by rw [(Thread.mk.inj h_t).1]]
    exact .waiting
  | broken e' =>
    obtain ⟨op', k', h_call, -⟩ := o.afterBreak_true p
    rw [h_call] at h_t
    cases h_t
  | holding => cases h_t
  | decided e' => cases h_t
  | answered a e' h => cases h_t

end Stage

/-! ### Threads that open one path -/

/-- Threads that open the file `path` for writing. -/
structure Crowd (ι : Type) where
  path : Path Tree
  start : FileSystem Tree
  /-- The number of a thread, `pthread_self`. -/
  tid : ι → ℕ
  request : ι → Opening
  writes : ∀ i, (request i).flags.writes

namespace Crowd

variable {ι : Type} [DecidableEq ι] (crowd : Crowd ι) (sha1 : Bytes → Bytes) (err : ι → Errno)

/-- The threads before their first call. The error registers hold anything. -/
def pool : Pool (sig Tree) ι (FileSystem Tree) (Except Errno CowFileHandle) where
  threads i := ⟨(crowd.request i).run sha1 (crowd.tid i) crowd.path, err i⟩
  state := crowd.start

/-- Thread `i` makes its first `openat` and does not find the path. -/
def FindsMissing (F : Option Fault → Prop) (i : ι)
    (c c' : Pool (sig Tree) ι (FileSystem Tree) (Except Errno CowFileHandle)) : Prop :=
  (c.threads i).prog = (crowd.request i).run sha1 (crowd.tid i) crowd.path ∧
    ∃ f, F f ∧ ((machine Tree).exec f (.openat crowd.path .rdonly 0) c.state).1 = .error .ENOENT ∧
      ∃ t s, (machine Tree).step f (c.threads i) c.state = some (t, s) ∧
        c' = ⟨Function.update c.threads i t, s⟩

/-- **Creating a file that is missing survives contention.** In every run under faults in `F`, a thread
whose first `openat` does not find the path, and whose attempts to take the lock fail with errors in `P`
only, has got `true` from `MaybeBreakHardlink` three steps of its own later, apart from these attempts. It
never answers `EIO`. -/
def Survives (F : Option Fault → Prop) (P : Errno → Prop) : Prop :=
  ∀ c, Pool.Reachable (machine Tree) F (crowd.pool sha1 err) c → ∀ i c₁, crowd.FindsMissing sha1 F i c c₁ →
    ∀ n c₂, Pool.Turns (machine Tree) F P i c₁ n c₂ →
      (n = 3 → (c₂.threads i).prog = (crowd.request i).afterBreak crowd.path true) ∧
        (c₂.threads i).prog.value? ≠ some (.error Errno.EIO)

variable {crowd sha1} {F : Option Fault → Prop} {i : ι}
  {c c₁ c₂ : Pool (sig Tree) ι (FileSystem Tree) (Except Errno CowFileHandle)}

/-- The thread then waits for the lock. -/
theorem FindsMissing.stage (h : crowd.FindsMissing sha1 F i c c₁) :
    Stage crowd.path (crowd.request i) 0 (c₁.threads i) := by
  obtain ⟨h_prog, f, -, h_open, t, s, h_step, rfl⟩ := h
  have h_thread : c.threads i =
      ⟨(crowd.request i).run sha1 (crowd.tid i) crowd.path, (c.threads i).err⟩ := by rw [← h_prog]
  rw [h_thread, Opening.step_run (crowd.writes i) h_open] at h_step
  obtain ⟨rfl, -⟩ := Prod.mk.inj (Option.some.inj h_step)
  dsimp only
  rw [Function.update_self]
  exact .waiting

/-- **It survives where every failing attempt to take the lock fails with `ENOENT`**, whatever the other
threads do. -/
theorem survives (crowd : Crowd ι) (sha1 : Bytes → Bytes) (err : ι → Errno) (F : Option Fault → Prop) :
    crowd.Survives sha1 err F fun x => x = .ENOENT := by
  intro c _ i c₁ h_missing n c₂ h_turns
  have h_stage : Stage crowd.path (crowd.request i) n (c₂.threads i) :=
    h_turns.invariant (I := Stage crowd.path (crowd.request i)) h_missing.stage
      (fun n f t s t' s' h h_ok h_step => h.step h_ok h_step) fun n op k e x h hx => h.retry hx
  generalize c₂.threads i = t at h_stage
  constructor
  · rintro rfl
    cases h_stage
    rfl
  · intro h_eio
    cases h_stage with
    | waiting => cases h_eio
    | holding => cases h_eio
    | decided e => cases h_eio
    | broken e =>
      obtain ⟨op, k, h_call, -⟩ := (crowd.request i).afterBreak_true crowd.path
      rw [h_call] at h_eio
      cases h_eio
    | answered a e h => exact h (Option.some.inj h_eio)

/-! ### Two threads that create one file -/

/-- `O_WRONLY | O_CREAT`. -/
def createFlags : OpenFlags := ⟨.wronly, true, false, false, false⟩

/-- Two threads that create one file in an empty directory. -/
def twoCreate : Crowd Bool where
  path := fileA
  start := emptyMount
  tid i := if i then 1 else 2
  request _ := .create createFlags 0o644
  writes _ := rfl

/-- The pool after the second thread's first `openat`. -/
def twoCreateOpened : Pool (sig Tree) Bool (FileSystem Tree) (Except Errno CowFileHandle) :=
  Pool.play (machine Tree) [(false, none)] (twoCreate.pool id fun _ => .ENOENT)

/-- The first thread takes the lock, the second one tries to, and goes on when the first has answered. -/
def twoCreateAnswered : Pool (sig Tree) Bool (FileSystem Tree) (Except Errno CowFileHandle) :=
  Pool.play (machine Tree) ([true, true, false, true, true, true, false, false, false].map (·, none))
    twoCreateOpened

theorem findsMissing_twoCreate : twoCreate.FindsMissing id (fun f => f = none) false
    (twoCreate.pool id fun _ => .ENOENT) twoCreateOpened := by
  have h_open : ((machine Tree).exec none (.openat fileA .rdonly 0) emptyMount).1 = .error .ENOENT := by
    decide +kernel
  have h_step : (machine Tree).step none ((twoCreate.pool id fun _ => .ENOENT).threads false)
      (twoCreate.pool id fun _ => .ENOENT).state
        = some (⟨(twoCreate.request false).waiting fileA, .ENOENT⟩, emptyMount) :=
    Opening.step_run rfl h_open
  refine ⟨rfl, none, rfl, h_open, _, _, h_step, ?_⟩
  rw [twoCreateOpened, Pool.play, h_step]
  rfl

/-- The pool after three more steps of the second thread, with the lock free. -/
def twoCreateBroken : Pool (sig Tree) Bool (FileSystem Tree) (Except Errno CowFileHandle) :=
  Pool.play (machine Tree) (List.replicate 3 (false, none)) twoCreateOpened

theorem survives_twoCreateBroken : (twoCreateBroken.threads false).prog =
    (twoCreate.request false).afterBreak fileA true := by
  have h₁ : Pool.Turns (machine Tree) (fun f => f = none) (fun x => x = .ENOENT) false twoCreateOpened 1 _ :=
    Pool.Turns.refl.play_own rfl (by decide +kernel) (by decide +kernel)
  have h₂ := h₁.play_own rfl (by decide +kernel) (by decide +kernel)
  have h₃ := h₂.play_own rfl (by decide +kernel) (by decide +kernel)
  exact (survives twoCreate id (fun _ => .ENOENT) (fun f => f = none) _ .refl false _ findsMissing_twoCreate 3 _
    h₃).1 rfl

/-- The second thread has found the lock taken, and answers `EIO`. -/
theorem not_survives_twoCreate : ¬ twoCreate.Survives id (fun _ => .ENOENT) (fun f => f = none) fun _ => True := by
  intro h
  have h_turns : Pool.Reachable (machine Tree) (fun f => f = none) twoCreateOpened twoCreateAnswered :=
    Pool.reachable_play (by decide) _
  obtain ⟨n, h_run⟩ := h_turns.exists_turns false
  have h_eio : (twoCreateAnswered.threads false).prog.value? = some (.error Errno.EIO) := by
    decide +kernel
  exact (h _ .refl false _ findsMissing_twoCreate n _ h_run).2 h_eio

end Crowd

end GitlstreeFS.Cowfs
