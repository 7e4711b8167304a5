import GitlstreeFS.Posix.SysCall
import GitlstreeFS.Effect.Run

/-!
# The machine of the system calls

`machine` is the meaning of the calls of `Posix.SysCall`: a failing call leaves the
state as it was, with or without a fault (`exec_error`), which is the law a machine has
to satisfy.
-/

namespace Posix

open Effect

variable {Root : Type}

/-! ### Failing calls change nothing -/

namespace FileSystem

/-- The result `r` of a call made in the state `w` has no effect if it is an error. -/
def NoEffectOnError {α : Type} (w : FileSystem Root) (r : Except Errno α × FileSystem Root) : Prop :=
  ∀ x, r.1 = .error x → r.2 = w

variable {w : FileSystem Root}

theorem noEffect_error {α : Type} (x : Errno) :
    w.NoEffectOnError ((.error x, w) : Except Errno α × FileSystem Root) :=
  fun _ _ => rfl

theorem noEffect_ok {α : Type} (a : α) (w' : FileSystem Root) :
    w.NoEffectOnError (.ok a, w') :=
  fun _ h => absurd h (by simp)

theorem setattrat_error (p : Path Root) (nofollow : Bool) (f : Attr → Attr) :
    w.NoEffectOnError (w.setattrat p nofollow f) := by
  unfold setattrat
  split
  · exact noEffect_error _
  · exact noEffect_ok _ _

theorem fsetxattr_error (f : OpenFile) (name : Name) (value : Bytes) (fl : XattrFlags) :
    w.NoEffectOnError (w.fsetxattr f name value fl) := by
  unfold fsetxattr
  split
  · exact noEffect_error _
  · exact noEffect_ok _ _

theorem pwrite_error (f : OpenFile) (data : Bytes) (off : ℕ) :
    w.NoEffectOnError (w.pwrite f data off) := by
  unfold pwrite
  split
  · exact noEffect_error _
  · split <;> exact noEffect_ok _ _

theorem sendfile_error (out inp : OpenFile) (n : ℕ) :
    w.NoEffectOnError (w.sendfile out inp n) := by
  unfold sendfile
  split
  · exact noEffect_error _
  · split
    · exact noEffect_ok _ _
    · exact noEffect_error _

theorem ftruncate_error (f : OpenFile) (n : ℕ) : w.NoEffectOnError (w.ftruncate f n) := by
  unfold ftruncate
  split
  · exact noEffect_error _
  · split
    · exact noEffect_ok _ _
    · exact noEffect_error _

variable [DecidableEq Root]

theorem makeNode_error (p : Path Root) (n : Inode Root) : w.NoEffectOnError (w.makeNode p n) := by
  unfold makeNode
  split
  · exact noEffect_error _
  · exact noEffect_error _
  · exact noEffect_ok _ _

theorem openIno_error (i : ℕ) (fl : OpenFlags) : w.NoEffectOnError (w.openIno i fl) := by
  unfold openIno
  split_ifs
  · exact noEffect_error _
  · exact noEffect_error _
  · exact noEffect_error _
  · split <;> exact noEffect_ok _ _

theorem createFile_error (p : Path Root) (fl : OpenFlags) (mode : Mode) :
    w.NoEffectOnError (w.createFile p fl mode) := by
  unfold createFile
  split
  · exact noEffect_error _
  · exact noEffect_ok _ _

theorem openat_error (p : Path Root) (fl : OpenFlags) (mode : Mode) :
    w.NoEffectOnError (w.openat p fl mode) := by
  unfold openat
  split
  · split
    · exact noEffect_error _
    · exact createFile_error p fl mode
  · split
    · exact noEffect_error _
    · split
      · exact openIno_error _ fl
      · split
        · exact createFile_error _ fl mode
        · exact noEffect_error _

theorem exchange_error (a b : Path Root) : w.NoEffectOnError (w.exchange a b) := by
  unfold exchange
  by_cases h_dir : w.isDir a ∨ w.isDir b
  · rw [if_pos h_dir]
    by_cases h_below : ¬ Path.Below a b ∧ ¬ Path.Below b a
    · rw [dif_pos h_below]
      exact noEffect_ok _ _
    · rw [dif_neg h_below]
      exact noEffect_error _
  · rw [if_neg h_dir]
    exact noEffect_ok _ _

theorem renameat2_error (a b : Path Root) (fl : RenameFlags) :
    w.NoEffectOnError (w.renameat2 a b fl) := by
  unfold renameat2
  split
  · exact noEffect_error _
  · split
    · exact noEffect_error _
    · cases fl with
      | exchange =>
        dsimp only
        split
        · exact noEffect_error _
        · exact exchange_error a b
      | noreplace =>
        dsimp only
        split
        · exact noEffect_error _
        · exact exchange_error a b
      | none =>
        dsimp only
        split
        · exact noEffect_ok _ _
        · split
          · exact noEffect_error _
          · split
            · exact noEffect_ok _ _
            · exact noEffect_error _

end FileSystem

variable [DecidableEq Root] (w : FileSystem Root)

/-- A call the state makes fail leaves the state as it was. -/
theorem answer_error (c : SysCall Root) : w.NoEffectOnError (answer w c) := by
  open FileSystem in
  cases c with
  | openat p fl mode => exact openat_error p fl mode
  -- each call is an instance of one of a few general ones
  | close f => exact noEffect_ok _ _
  | fstat f => exact noEffect_ok _ _
  | fstatat p nofollow => exact fun _ _ => rfl
  | read f n => exact fun _ _ => rfl
  | pwrite f data off => exact pwrite_error f data off
  | sendfile out inp n => exact sendfile_error out inp n
  | posixFallocate f n => exact noEffect_ok _ _
  | ftruncate f n => exact ftruncate_error f n
  | fchmod f mode => exact noEffect_ok _ _
  | fchown f uid gid => exact noEffect_ok _ _
  | futimens f atime mtime => exact noEffect_ok _ _
  | fsetxattr f name value fl => exact fsetxattr_error f name value fl
  | fchmodat p mode => exact setattrat_error p _ _
  | fchownat p uid gid => exact setattrat_error p _ _
  | utimensat p atime mtime => exact setattrat_error p _ _
  | mkdirat p mode => exact makeNode_error p _
  | mknodat p k mode => exact makeNode_error p _
  | symlinkat target p => exact makeNode_error p _
  | renameat2 a b fl => exact renameat2_error a b fl
  -- the three calls that are not an instance of one of the general ones
  | unlinkat p =>
    change w.NoEffectOnError (w.unlinkat p)
    unfold unlinkat
    split_ifs
    · exact noEffect_error _
    · exact noEffect_error _
    · exact noEffect_ok _ _
  | rmdirat p =>
    change w.NoEffectOnError (w.rmdirat p)
    unfold rmdirat
    split
    · exact noEffect_error _
    · split
      · exact noEffect_error _
      · split
        · exact noEffect_error _
        · exact noEffect_ok _ _
  | linkat a b =>
    change w.NoEffectOnError (w.linkat a b)
    unfold linkat
    split
    · exact noEffect_error _
    · split_ifs
      · exact noEffect_error _
      · exact noEffect_error _
      · split
        · exact noEffect_error _
        · exact noEffect_ok _ _

/-- A failing call, faults included, leaves the state as it was. -/
theorem exec_error (f : Option Fault) (c : SysCall Root) : w.NoEffectOnError (exec w f c) := by
  open FileSystem in
  rcases f with _ | ⟨x⟩ | ⟨m⟩
  · have h : exec w none c = answer w c := by cases c <;> rfl
    rw [h]
    exact answer_error w c
  · by_cases h : ∃ f n, c = .posixFallocate f n
    · obtain ⟨f, n, rfl⟩ := h
      exact noEffect_ok _ _
    · have h_fail : exec w (some (.fail x)) c = (.error x, w) := by
        cases c <;> first | rfl | exact absurd ⟨_, _, rfl⟩ h
      rw [h_fail]
      exact noEffect_error x
  · cases c with
    | read f n => exact fun _ _ => rfl
    | pwrite f data off => exact pwrite_error f _ off
    | sendfile out inp n => exact sendfile_error out inp _
    | _ => exact answer_error w _

/-- The system calls as a machine. -/
def machine (Root : Type) [DecidableEq Root] : Machine (sig Root) (FileSystem Root) Fault where
  exec f c w := exec w f c
  exec_error f c w := exec_error w f c

@[simp] theorem machine_exec_none (c : SysCall Root) :
    (machine Root).exec none c w = answer w c := by
  cases c <;> rfl

end Posix
