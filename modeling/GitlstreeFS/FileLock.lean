import GitlstreeFS.Cowfs.Handler
import GitlstreeFS.FileUtilFaults

/-!
# Waiting for a lock

The constructor of `ScopedFileLockWithDelete` makes the directory `name.lock` and tries it again where it
cannot, whatever the reason is. Each attempt meets the directory as it is then, and may fail with an error
that is not a matter of names (`Attempts`). `lockEnds_iff` says when one of them succeeds.

`retry_isSome_iff` is the connection with the programs that take a lock: they are stuck just if the attempts
on the directory that they run on do not end.
-/

namespace GitlstreeFS

open Effect Posix FileSystem

variable {Root : Type} [DecidableEq Root] {w : FileSystem Root} {p : Path Root} {k n : ℕ} {e : Errno}

/-- What the attempts meet: the directory, and an error in its place. -/
structure Attempts (Root : Type) where
  state : ℕ → FileSystem Root
  fault : ℕ → Option Fault

/-- The loop of the constructor from the `n`-th attempt on, with a bound on the number of attempts: the
attempt that makes the lock directory, and what it leaves. -/
def scopedFileLockWithDeleteCtor (env : Attempts Root) (p : Path Root) :
    ℕ → ℕ → Option (ℕ × FileSystem Root)
  | 0, _ => none
  | k + 1, n =>
    match exec (env.state n) (env.fault n) (.mkdirat (lockName p) 0o700) with
    | (.ok _, w) => some (n, w)
    | (.error x, _) =>
      if x = .EEXIST then
        -- `usleep(1000)`
        scopedFileLockWithDeleteCtor env p k (n + 1)
      else
        -- the error goes to the log
        scopedFileLockWithDeleteCtor env p k (n + 1)

/-- The loop ends. -/
def LockEnds (env : Attempts Root) (p : Path Root) : Prop :=
  ∃ k, (scopedFileLockWithDeleteCtor env p k 0).isSome

variable {env : Attempts Root}

/-- An attempt succeeds just if the lock can be taken and no other error comes in between. -/
theorem exec_mkdirat_cases (w : FileSystem Root) (fault : Option Fault) (p : Path Root) :
    ((faultErrno fault = none ∧ Lockable w p) ∧
        exec w fault (.mkdirat (lockName p) 0o700) = (.ok (), locked w p)) ∨
      (¬ (faultErrno fault = none ∧ Lockable w p) ∧
        ∃ x, exec w fault (.mkdirat (lockName p) 0o700) = (.error x, w)) := by
  rcases h_fault : faultErrno fault with _ | x
  · rw [exec_pass h_fault rfl]
    obtain ⟨h_lock, h_answer⟩ | ⟨h_lock, x, h_answer⟩ := answer_mkdirat_lock w p
    · exact .inl ⟨⟨rfl, h_lock⟩, h_answer⟩
    · exact .inr ⟨fun h => h_lock h.2, x, h_answer⟩
  · exact .inr ⟨fun h => (by cases h.1), x, exec_fail h_fault (by simp)⟩

/-- One attempt. -/
theorem ctor_succ_of_lockable (h : faultErrno (env.fault n) = none ∧ Lockable (env.state n) p) (k : ℕ) :
    scopedFileLockWithDeleteCtor env p (k + 1) n = some (n, locked (env.state n) p) := by
  obtain ⟨-, h_exec⟩ | ⟨h_not, -⟩ := exec_mkdirat_cases (env.state n) (env.fault n) p
  · rw [scopedFileLockWithDeleteCtor, h_exec]
  · exact absurd h h_not

theorem ctor_succ_of_not (h : ¬ (faultErrno (env.fault n) = none ∧ Lockable (env.state n) p)) (k : ℕ) :
    scopedFileLockWithDeleteCtor env p (k + 1) n = scopedFileLockWithDeleteCtor env p k (n + 1) := by
  obtain ⟨h_lock, -⟩ | ⟨-, x, h_exec⟩ := exec_mkdirat_cases (env.state n) (env.fault n) p
  · exact absurd h_lock h
  · rw [scopedFileLockWithDeleteCtor, h_exec]
    exact ite_self _

/-- The attempts from the `n`-th on, by induction on the bound. -/
theorem ctor_isSome_iff : (scopedFileLockWithDeleteCtor env p k n).isSome ↔
    ∃ j, n ≤ j ∧ j < n + k ∧ faultErrno (env.fault j) = none ∧ Lockable (env.state j) p := by
  induction k generalizing n with
  | zero =>
    refine iff_of_false (by simp [scopedFileLockWithDeleteCtor]) ?_
    rintro ⟨j, h_le, h_lt, -⟩
    omega
  | succ k ih =>
    by_cases h : faultErrno (env.fault n) = none ∧ Lockable (env.state n) p
    · rw [ctor_succ_of_lockable h]
      exact iff_of_true rfl ⟨n, Nat.le_refl n, by omega, h⟩
    · rw [ctor_succ_of_not h, ih]
      constructor
      · rintro ⟨j, h_le, h_lt, h_j⟩
        exact ⟨j, by omega, by omega, h_j⟩
      · rintro ⟨j, h_le, h_lt, h_j⟩
        obtain rfl | h_ne := eq_or_ne j n
        · exact absurd h_j h
        · exact ⟨j, by omega, by omega, h_j⟩

/-- Some bound suffices just if an attempt from the `n`-th on succeeds. -/
theorem exists_ctor_isSome_iff (env : Attempts Root) (p : Path Root) (n : ℕ) :
    (∃ k, (scopedFileLockWithDeleteCtor env p k n).isSome) ↔
      ∃ j, n ≤ j ∧ faultErrno (env.fault j) = none ∧ Lockable (env.state j) p := by
  constructor
  · rintro ⟨k, h⟩
    obtain ⟨j, h_le, -, h_j⟩ := ctor_isSome_iff.mp h
    exact ⟨j, h_le, h_j⟩
  · rintro ⟨j, h_le, h_j⟩
    exact ⟨j + 1, ctor_isSome_iff.mpr ⟨j, h_le, by omega, h_j⟩⟩

/-- **The lock is taken** just if some attempt finds the name free in a directory that is there, and meets
no other error. -/
theorem lockEnds_iff (env : Attempts Root) (p : Path Root) : LockEnds env p ↔
    ∃ n, faultErrno (env.fault n) = none ∧ Lockable (env.state n) p := by
  rw [LockEnds, exists_ctor_isSome_iff]
  simp only [Nat.zero_le, true_and]

/-- A directory with a file `a`, whose owner has a file `a.lock` too. -/
def ownLockFile : FileSystem Cowfs.Tree :=
  ((Cowfs.emptyMount.alloc ⟨.reg [120], ⟨0o644#12, 7, 7, 1, 1, 1, []⟩⟩).setName Cowfs.fileA 2).setName
    (lockName Cowfs.fileA) 2

/-- The lock of `a` is waited for for ever there, though nobody else takes it. -/
theorem not_lockEnds_ownLockFile : ¬ LockEnds ⟨fun _ => ownLockFile, fun _ => none⟩ Cowfs.fileA := by
  rw [LockEnds, exists_ctor_isSome_iff]
  rintro ⟨n, -, -, h_free, -⟩
  have h_taken : ownLockFile.names (lockName Cowfs.fileA) = some 2 := by decide +kernel
  exact absurd (h_free.symm.trans h_taken) (by simp)

/-- The attempts of a run on the directory `w`, under a schedule of faults. -/
def attemptsOf (w : FileSystem Root) (faults : List (Option Fault)) : Attempts Root where
  state _ := w
  fault n := faults[n]?.join

/-- They end just if the lock can be taken: the schedule has an end, so some attempt is free of faults. -/
theorem lockEnds_attemptsOf (w : FileSystem Root) (faults : List (Option Fault)) (p : Path Root) :
    LockEnds (attemptsOf w faults) p ↔ Lockable w p := by
  rw [LockEnds, exists_ctor_isSome_iff]
  constructor
  · rintro ⟨n, -, -, h⟩
    exact h
  · intro h
    refine ⟨faults.length, Nat.zero_le _, ?_, h⟩
    change faultErrno faults[faults.length]?.join = none
    rw [List.getElem?_eq_none (Nat.le_refl _)]
    rfl

/-- The attempts of a program get a lock that can be taken, by induction on the schedule. -/
theorem retry_isSome (h : Lockable w p) (faults : List (Option Fault)) :
    ((machine Root).retry (.mkdirat (lockName p) 0o700) e faults w).1.isSome := by
  induction faults generalizing e with
  | nil =>
    obtain ⟨-, h_retry⟩ | ⟨h_not, -⟩ := retry_lock w p e
    · rw [h_retry]
      rfl
    · exact absurd h h_not
  | cons fault faults ih =>
    rw [Machine.retry]
    rcases h_exec : (machine Root).exec fault (.mkdirat (lockName p) 0o700) w with ⟨x | v, w'⟩
    · -- an attempt that fails leaves the directory as it is
      have h_same : w' = w := by
        have h_error := (machine Root).exec_error fault (.mkdirat (lockName p) 0o700) w x (by rw [h_exec])
        rwa [h_exec] at h_error
      rw [h_same]
      exact ih
    · rfl

/-- **A program that takes a lock** gets it just if the loop of the constructor ends. -/
theorem retry_isSome_iff (faults : List (Option Fault)) :
    ((machine Root).retry (.mkdirat (lockName p) 0o700) e faults w).1.isSome ↔
      LockEnds (attemptsOf w faults) p := by
  rw [lockEnds_attemptsOf]
  constructor
  · intro h
    rcases h_retry : (machine Root).retry (.mkdirat (lockName p) 0o700) e faults w with ⟨_ | v, e', fs, w'⟩
    · rw [h_retry] at h
      cases h
    · exact (retry_lock_taken h_retry).1
  · intro h
    exact retry_isSome h faults

end GitlstreeFS
