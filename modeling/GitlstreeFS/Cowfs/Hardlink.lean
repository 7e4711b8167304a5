import GitlstreeFS.Effect.Ends
import GitlstreeFS.FileUtilFaults
import GitlstreeFS.Cowfs.Spec

/-!
# `HardlinkOneFile` on any directory, under faults

What the function does is decided by what the calls meet, one after the other: whether it finds the two files
to be one already (`lookedUp`), whether the constructor of the temporary file ends the process (`Refused`),
and whether the new name is made and moved to its place (`Lands`). `ends_hardlinkOneFile` has one case for
each way out.

A file that is moved onto another name of itself stays where it is, and the call succeeds: then there are two
names, the temporary one and the old one.

The removal of a temporary file that is there is assumed to succeed (`Removes`).
-/

namespace GitlstreeFS.Cowfs

open Effect Posix FileSystem

variable {sha1 : Bytes → Bytes} {tid : ℕ} {w w' v : FileSystem Tree} {p q src dst tmp : Path Tree} {i j : ℕ}
  {d : Bytes} {e : Errno} {fs : List (Option Fault)} {f : Option Fault}

/-! ### Cleaning up -/

/-- Under `A` a temporary file `tmp` that is there can be removed. -/
def Removes (A : (c : SysCall Tree) → FileSystem Tree → Except Errno c.Val → Bool) (tmp : Path Tree) : Prop :=
  ∀ w r, A (.unlinkat tmp) w r → w.names tmp ≠ none → w.isDir tmp = false → r = .ok ()

/-- A file that is there can be removed. -/
def removesFiles : (c : SysCall Tree) → FileSystem Tree → Except Errno c.Val → Bool
  | .unlinkat q, w, r => (w.names q).isNone || w.isDir q || r.isOk
  | _, _, _ => true

/-- The calls that clean up succeed: a temporary file `tmp` that is there can be removed, and so can a lock
directory. -/
def cleansUp (tmp : Path Tree) : (c : SysCall Tree) → FileSystem Tree → Except Errno c.Val → Bool
  | .unlinkat q, w, r => decide (q ≠ tmp) || removesFiles (.unlinkat q) w r
  | .rmdirat _, _, r => r.isOk
  | _, _, _ => true

theorem removes_removesFiles (tmp : Path Tree) : Removes removesFiles tmp := by
  intro w r h h_some h_dir
  have h_ok : r.isOk = true := by
    simpa [removesFiles, h_dir, Option.isNone_iff_eq_none, h_some] using h
  rcases r with x | u
  · cases h_ok
  · rfl

theorem removes_cleansUp (tmp : Path Tree) : Removes (cleansUp tmp) tmp := by
  intro w r h
  have h_file : removesFiles (.unlinkat tmp) w r := by simpa [cleansUp] using h
  exact removes_removesFiles tmp w r h_file

/-- Without faults it can always be removed. -/
theorem removesFiles_answer (c : SysCall Tree) (w : FileSystem Tree) :
    removesFiles c w ((machine Tree).exec none c w).1 := by
  rw [machine_exec_none]
  cases c with
  | unlinkat q =>
    rcases h_dir : w.isDir q with _ | _
    · by_cases h_none : w.names q = none
      · simp [removesFiles, h_none]
      · rw [answer_unlinkat h_none h_dir]
        simp [removesFiles, Except.isOk, Except.toBool]
    · simp [removesFiles, h_dir]
  | _ => rfl

variable {A : (c : SysCall Tree) → FileSystem Tree → Except Errno c.Val → Bool}

section Rules

variable {α β : Type}
  {Q : Outcome α → Errno → List (Option Fault) → FileSystem Tree → Prop}

theorem ends_sys {c : SysCall Tree} {r : Except Errno c.Val} {k : Except Errno c.Val → Proc Tree α}
    (h : exec w fs.head?.join c = (r, w'))
    (hk : A c w r → (machine Tree).Ends A (k r) (errnoAfter e r) fs.tail w' Q) :
    (machine Tree).Ends A (sys c >>= k) e fs w Q :=
  Machine.ends_call h hk

theorem ends_pure {a : α} (h : Q (.done a) e fs w) : (machine Tree).Ends A (pure a) e fs w Q :=
  Machine.ends_ret h

/-- Looking at the error register. -/
theorem ends_getErrno {k : Errno → Proc Tree α} (h : (machine Tree).Ends A (k e) e fs w Q) :
    (machine Tree).Ends A (Prog.getErrno >>= k) e fs w Q :=
  Machine.ends_errno h

theorem ends_ite {c : Prop} [Decidable c] {q q' : Proc Tree α} (h : c → (machine Tree).Ends A q e fs w Q)
    (h' : ¬ c → (machine Tree).Ends A q' e fs w Q) :
    (machine Tree).Ends A (if c then q else q') e fs w Q := by
  split
  · exact h ‹_›
  · exact h' ‹_›

theorem ends_bind {q : Proc Tree β} {k : β → Proc Tree α}
    (h : (machine Tree).Ends A q e fs w fun o e' fs' w' => o.Split
      (fun b => (machine Tree).Ends A (k b) e' fs' w' Q) (Q .aborted e' fs' w') (Q .stuck e' fs' w')) :
    (machine Tree).Ends A (q >>= k) e fs w Q :=
  Machine.ends_seq h

end Rules

/-! ### The temporary file -/

/-- The constructor of a temporary file ends the process: the removal of an old file of its name fails with
another error than `ENOENT`. -/
def Refused (w : FileSystem Tree) (f : Option Fault) (tmp : Path Tree) : Prop :=
  (∃ x, faultErrno f = some x ∧ x ≠ .ENOENT) ∨
    faultErrno f = none ∧ (w.isDir tmp = true ∨ w.names tmp = none ∧ w.missing tmp ≠ .ENOENT)

/-- What the constructor leaves: no file of the name, unless a directory has it and the error was `ENOENT`
nevertheless. -/
structure Vacated (w w' : FileSystem Tree) (tmp : Path Tree) : Prop where
  keeps : Keeps w w'
  names : w'.names = if w.isDir tmp then w.names else Function.update w.names tmp none

theorem Vacated.names_of_ne (h : Vacated w w' tmp) (h_ne : q ≠ tmp) : w'.names q = w.names q := by
  rw [h.names]
  split
  · rfl
  · rw [Function.update_of_ne h_ne]

theorem Vacated.isDir (h : Vacated w w' tmp) (q : Path Tree) : w'.isDir q = w.isDir q := by
  by_cases h_ne : q = tmp
  · subst h_ne
    by_cases h_dir : w.isDir q
    · exact h.keeps.isDir (by rw [h.names, if_pos h_dir])
    · rw [isDir_eq_false_of_names_none (by rw [h.names, if_neg h_dir, Function.update_self])]
      simpa using h_dir
  · exact h.keeps.isDir (h.names_of_ne h_ne)

theorem vacated_self (h : w.names tmp = none ∨ w.isDir tmp = true) : Vacated w w tmp := by
  refine ⟨.refl w, ?_⟩
  split
  · rfl
  · next h_dir => rw [← h.resolve_right h_dir, Function.update_eq_self]

theorem vacated_clearName (h : w.isDir tmp = false) : Vacated w (w.clearName tmp) tmp :=
  ⟨keeps_clearName tmp, by rw [h]; rfl⟩

/-- What the removal of an old temporary file comes to. -/
theorem exec_unlinkat_cases (w : FileSystem Tree) (f : Option Fault) (tmp : Path Tree) :
    (∃ x, exec w f (.unlinkat tmp) = (.error x, w) ∧ (x ≠ .ENOENT ↔ Refused w f tmp)) ∨
      ¬ Refused w f tmp ∧ w.isDir tmp = false ∧ exec w f (.unlinkat tmp) = (.ok (), w.clearName tmp) := by
  unfold Refused
  rcases hx : faultErrno f with _ | x
  · rw [exec_pass hx rfl]
    by_cases h_dir : w.isDir tmp = true
    · refine .inl ⟨.EISDIR, ?_, by simp [h_dir]⟩
      have h_some : w.names tmp ≠ none := fun h => by simp [isDir_eq_false_of_names_none h] at h_dir
      change w.unlinkat tmp = _
      simp [FileSystem.unlinkat, h_some, h_dir]
    · by_cases h_none : w.names tmp = none
      · refine .inl ⟨_, answer_unlinkat_missing h_none, ?_⟩
        simp [h_dir, h_none]
      · refine .inr ⟨by simp [h_dir, h_none], by simpa using h_dir, ?_⟩
        exact answer_unlinkat h_none (by simpa using h_dir)
  · refine .inl ⟨x, exec_fail hx (by simp), ?_⟩
    simp

/-- The constructor. -/
theorem ends_scopedTempFileCtor {Q : Outcome Unit → Errno → List (Option Fault) → FileSystem Tree → Prop}
    (hA : Removes A tmp) (h_refused : Refused w fs.head?.join tmp → ∀ e', Q .aborted e' fs.tail w)
    (h_free : ¬ Refused w fs.head?.join tmp → ∀ e' w', Vacated w w' tmp → Q (.done ()) e' fs.tail w') :
    (machine Tree).Ends A (scopedTempFileCtor tmp) e fs w Q := by
  unfold scopedTempFileCtor
  obtain ⟨x, h_exec, h_iff⟩ | ⟨h_not, h_dir, h_exec⟩ := exec_unlinkat_cases w fs.head?.join tmp
  · refine ends_sys h_exec fun h_clean => ends_getErrno (ends_ite (fun h_ne => ?_) fun h_eq => ?_)
    · exact Machine.ends_abort (h_refused (h_iff.mp h_ne) _)
    · -- with `ENOENT` for an error there was no such file
      refine ends_pure (h_free (fun h => h_eq (h_iff.mpr h)) _ _ (vacated_self ?_))
      by_contra h_there
      push Not at h_there
      have h_ok := hA w _ h_clean h_there.1 (by simpa using h_there.2)
      cases h_ok
  · refine ends_sys h_exec fun _ => ends_pure (h_free h_not _ _ (vacated_clearName h_dir))

/-- The destructor, with the temporary file there. -/
theorem ends_scopedTempFileDtor {Q : Outcome Unit → Errno → List (Option Fault) → FileSystem Tree → Prop}
    (hA : Removes A tmp) (h_some : w.names tmp ≠ none) (h_dir : w.isDir tmp = false)
    (hQ : ∀ e', Q (.done ()) e' fs.tail (w.clearName tmp)) :
    (machine Tree).Ends A (scopedTempFileDtor tmp) e fs w Q := by
  unfold scopedTempFileDtor
  rcases h_exec : exec w fs.head?.join (.unlinkat tmp) with ⟨r, w'⟩
  refine ends_sys h_exec fun h_clean => ?_
  obtain rfl := hA w r h_clean h_some h_dir
  obtain ⟨x, h_error, -⟩ | ⟨-, -, h_done⟩ := exec_unlinkat_cases w fs.head?.join tmp
  · cases (Prod.mk.inj (h_exec.symm.trans h_error)).1
  · obtain rfl : w' = w.clearName tmp := (Prod.mk.inj (h_exec.symm.trans h_done)).2
    exact ends_pure (hQ _)

/-- The scope of a temporary file, from the constructor to the destructor. -/
theorem ends_scopedTempFile {α : Type} {opt : Name} {scope : Path Tree → Proc Tree (α × Bool)}
    {Q : Outcome α → Errno → List (Option Fault) → FileSystem Tree → Prop}
    (hA : Removes A (tmpName p opt tid))
    (h_refused : Refused w fs.head?.join (tmpName p opt tid) → ∀ e', Q .aborted e' fs.tail w)
    (h_scope : ¬ Refused w fs.head?.join (tmpName p opt tid) → ∀ e' w', Vacated w w' (tmpName p opt tid) →
      (machine Tree).Ends A (scope (tmpName p opt tid)) e' fs.tail w'
        fun o e'' fs'' w'' => o.Split
          (fun r => if r.2 then w''.names (tmpName p opt tid) ≠ none ∧ w''.isDir (tmpName p opt tid) = false ∧
            ∀ e₃, Q (.done r.1) e₃ fs''.tail (w''.clearName (tmpName p opt tid)) else Q (.done r.1) e'' fs'' w'')
          (Q .aborted e'' fs'' w'') (Q .stuck e'' fs'' w'')) :
    (machine Tree).Ends A (scopedTempFile p opt tid scope) e fs w Q := by
  unfold scopedTempFile
  refine ends_bind (ends_scopedTempFileCtor hA h_refused fun h_not e' w' h_vacated => ?_)
  refine ends_bind ((h_scope h_not e' w' h_vacated).mono ?_)
  rintro (⟨a, owned⟩ | _ | _) e'' fs'' w'' h
  · cases owned with
    | false => exact ends_pure h
    | true =>
      obtain ⟨h_some, h_dir, hQ⟩ := h
      exact ends_bind (ends_scopedTempFileDtor hA h_some h_dir fun e₃ => ends_pure (hQ e₃))
  · exact h
  · exact h

/-- The scope of a lock: the lock is waited for for ever, or taken after some attempts and given back. -/
theorem ends_scopedFileLockWithDelete {α : Type} {scope : Proc Tree α}
    {Q : Outcome α → Errno → List (Option Fault) → FileSystem Tree → Prop}
    (h_stuck : ∀ e' fs', (machine Tree).retry (.mkdirat (lockName p) 0o700) e fs w = (none, e', fs', w) →
      Q .stuck e' fs' w)
    (h_scope : ∀ e' fs', Lockable w p →
      (machine Tree).retry (.mkdirat (lockName p) 0o700) e fs w = (some (), e', fs', locked w p) →
      (machine Tree).Ends A scope e' fs' (locked w p) fun o e'' fs'' w'' => o.Split
        (fun a => ∀ r v, exec w'' fs''.head?.join (.rmdirat (lockName p)) = (r, v) →
          A (.rmdirat (lockName p)) w'' r → Q (.done a) (errnoAfter e'' r) fs''.tail v)
        (Q .aborted e'' fs'' w'') (Q .stuck e'' fs'' w'')) :
    (machine Tree).Ends A (scopedFileLockWithDelete p scope) e fs w Q := by
  unfold scopedFileLockWithDelete
  rcases h_retry : (machine Tree).retry (.mkdirat (lockName p) 0o700) e fs w with ⟨_ | u, e', fs', w'⟩
  · obtain rfl : w' = w := (machine Tree).retry_eq_none h_retry
    exact Machine.ends_spin_stuck h_retry (h_stuck _ _ h_retry)
  · obtain ⟨h_lock, rfl⟩ := retry_lock_taken h_retry
    refine Machine.ends_spin h_retry ?_
    refine ends_bind (q := scope) ((h_scope e' fs' h_lock h_retry).mono ?_)
    rintro (a | _ | _) e'' fs'' w'' h
    · rcases h_exec : exec w'' fs''.head?.join (.rmdirat (lockName p)) with ⟨r, v⟩
      exact ends_sys h_exec fun h_clean => ends_pure (h r v h_exec h_clean)
    · exact h
    · exact h

/-! ### Making the link -/

/-- With `fs` for the faults from the constructor of the temporary file on: the new name of `src` is made and
moved to `dst`. -/
structure Lands (w : FileSystem Tree) (fs : List (Option Fault)) (src dst tmp : Path Tree) : Prop where
  link : faultErrno fs.tail.head?.join = none
  move : faultErrno fs.tail.tail.head?.join = none
  there : w.names src ≠ none
  file : w.isDir src = false
  temp : w.isDir tmp = false
  up : w.isDir dst.parent = true
  target : w.names src = w.names dst ∨ w.isDir dst = false

/-- The link is made, or the call fails. -/
theorem exec_linkat_cases (w : FileSystem Tree) (f : Option Fault) (src tmp : Path Tree) :
    (¬ (faultErrno f = none ∧ w.names src ≠ none ∧ w.isDir src = false ∧ w.names tmp = none ∧
        w.isDir tmp.parent = true) ∧ ∃ x, exec w f (.linkat src tmp) = (.error x, w)) ∨
      faultErrno f = none ∧ w.isDir src = false ∧ w.names tmp = none ∧ w.isDir tmp.parent = true ∧
        ∃ j, w.names src = some j ∧ exec w f (.linkat src tmp) = (.ok (), w.setName tmp j) := by
  rcases hx : faultErrno f with _ | x
  swap
  · exact .inl ⟨fun h => (by cases h.1), x, exec_fail hx (by simp)⟩
  rw [exec_pass hx rfl]
  obtain ⟨x, h_error⟩ | ⟨j, hj, h_file, h_free, h_ok⟩ := answer_linkat_cases w src tmp
  · refine .inl ⟨?_, x, h_error⟩
    rintro ⟨-, h_some, h_file, h_free, h_up⟩
    obtain ⟨j, hj⟩ := Option.ne_none_iff_exists'.mp h_some
    rw [answer_linkat hj h_file h_free h_up] at h_error
    cases (Prod.mk.inj h_error).1
  · rcases h_parent : w.parentError tmp with _ | x
    · exact .inr ⟨rfl, h_file, h_free, isDir_of_parentError h_parent, j, hj, h_ok⟩
    · -- no name is made in what is no directory
      have h_error : answer w (.linkat src tmp) = (.error x, w) := by
        change w.linkat src tmp = _
        simp [linkat, hj, h_file, h_free, h_parent]
      cases (Prod.mk.inj (h_ok.symm.trans h_error)).1

/-- The file at `tmp` is moved to `dst`, or the call fails. Where both are one file, nothing moves. -/
theorem exec_renameat2_cases (hj : w.names tmp = some j) (h_temp : w.isDir tmp = false)
    (h_up : w.isDir dst.parent = true) (f : Option Fault) :
    (¬ (faultErrno f = none ∧ (w.names dst = some j ∨ w.isDir dst = false)) ∧
        ∃ x, exec w f (.renameat2 tmp dst .none) = (.error x, w)) ∨
      faultErrno f = none ∧ (w.names dst = some j ∧ exec w f (.renameat2 tmp dst .none) = (.ok (), w) ∨
        w.names dst ≠ some j ∧ w.isDir dst = false ∧
          exec w f (.renameat2 tmp dst .none) = (.ok (), w.moveName tmp dst)) := by
  rcases hx : faultErrno f with _ | x
  swap
  · exact .inl ⟨fun h => (by cases h.1), x, exec_fail hx (by simp)⟩
  rw [exec_pass hx rfl]
  by_cases h_same : w.names dst = some j
  · exact .inr ⟨rfl, .inl ⟨h_same, answer_renameat2_same hj h_same h_up⟩⟩
  · rcases h_target : w.isDir dst with _ | _
    · exact .inr ⟨rfl, .inr ⟨h_same, rfl, answer_renameat2 hj h_temp h_target h_same h_up⟩⟩
    · have h_some : w.names dst ≠ none := fun h => by simp [isDir_eq_false_of_names_none h] at h_target
      refine .inl ⟨by simp [h_same], .EISDIR, ?_⟩
      change w.renameat2 tmp dst .none = _
      rw [← ne_eq, ne_comm] at h_same
      simp [renameat2, hj, parentError_of_isDir h_up, h_same, replaceError, h_temp, h_target, h_some]

/-- What is at the temporary name while it is moved. -/
theorem isDir_setName (hj : w.names src = some j) (h_file : w.isDir src = false) :
    (w.setName tmp j).isDir tmp = false := by
  rw [← h_file, Bool.eq_iff_iff, isDir_iff, isDir_iff, kind?_of_names hj, kind?_of_names (i := j) (by simp)]
  rfl

/-- A temporary file that was made and removed. -/
theorem Vacated.setName_clearName (h : Vacated w v tmp) (h_temp : w.isDir tmp = false) :
    Vacated w ((v.setName tmp j).clearName tmp) tmp where
  keeps := (h.keeps.trans (keeps_setName tmp j)).trans (keeps_clearName tmp)
  names := by
    have h_names : ((v.setName tmp j).clearName tmp).names = Function.update v.names tmp none :=
      Function.update_idem _ _ _
    rw [h_names, h.names, h_temp]
    exact Function.update_idem _ _ _

/-- **`HardlinkOneFile`** for two files that were not found to be one. -/
theorem ends_hardlinkFresh {Q : Outcome Bool → Errno → List (Option Fault) → FileSystem Tree → Prop}
    (ht : tmpName dst "of".toList tid = tmp) (hA : Removes A tmp) (h_src : src ≠ tmp)
    (h_refused : Refused w fs.head?.join tmp → ∀ e', Q .aborted e' fs.tail w)
    (h_failed : ¬ Refused w fs.head?.join tmp → ¬ Lands w fs src dst tmp →
      ∀ e' fs' w', Vacated w w' tmp → Q (.done false) e' fs' w')
    (h_twice : ¬ Refused w fs.head?.join tmp → Lands w fs src dst tmp → w.names src = w.names dst →
      ∀ e' fs' w', Keeps w w' → w'.names = Function.update w.names tmp (w.names src) →
        Q (.done true) e' fs' w')
    (h_moved : ¬ Refused w fs.head?.join tmp → Lands w fs src dst tmp → w.names src ≠ w.names dst →
      ∀ e' fs' w', Keeps w w' →
        w'.names = Function.update (Function.update w.names tmp none) dst (w.names src) →
        Q (.done true) e' fs' w') :
    (machine Tree).Ends A (hardlinkFresh tid src dst) e fs w Q := by
  have h_dst : dst ≠ tmp := fun h => tmpName_ne dst "of".toList tid (ht.trans h.symm)
  have h_up : tmp.parent = dst.parent := by rw [← ht, tmpName_parent]
  unfold hardlinkFresh
  subst ht
  refine ends_scopedTempFile hA h_refused fun h_not e' w₁ h_vacated => ?_
  generalize tmpName dst "of".toList tid = tmp at *
  have h_src₁ : w₁.names src = w.names src := h_vacated.names_of_ne h_src
  have h_dst₁ : w₁.names dst = w.names dst := h_vacated.names_of_ne h_dst
  have h_dir : ∀ q, w₁.isDir q = w.isDir q := h_vacated.isDir
  -- the constructor clears the name, unless it is that of a directory
  have h_free : w₁.names tmp = none ↔ w.isDir tmp = false := by
    rw [h_vacated.names]
    split
    · next h => simpa [h] using fun h_none => by simp [isDir_eq_false_of_names_none h_none] at h
    · next h => simpa using h
  obtain ⟨h_no, x, h_exec⟩ | ⟨h_link, h_file, h_none, h_parent, j, hj, h_exec⟩ :=
    exec_linkat_cases w₁ fs.tail.head?.join src tmp
  · -- no link is made
    refine ends_sys h_exec fun _ => ends_pure (h_failed h_not (fun h => h_no ?_) _ _ _ h_vacated)
    exact ⟨h.link, h_src₁ ▸ h.there, h_dir src ▸ h.file, h_free.mpr h.temp, by rw [h_dir, h_up, h.up]⟩
  refine ends_sys h_exec fun _ => ?_
  have h_temp := h_free.mp h_none
  rw [h_dir] at h_file
  rw [h_dir, h_up] at h_parent
  have hj₀ : w.names src = some j := h_src₁ ▸ hj
  -- now `tmp` is one more name of the file
  have h_names : (w₁.setName tmp j).names = Function.update w.names tmp (some j) := by
    change Function.update w₁.names tmp (some j) = _
    rw [h_vacated.names, h_temp]
    exact Function.update_idem _ _ _
  have h_keeps : Keeps w (w₁.setName tmp j) := h_vacated.keeps.trans (keeps_setName tmp j)
  have h_tmp : (w₁.setName tmp j).names tmp = some j := by simp
  have h_tmp_dir : (w₁.setName tmp j).isDir tmp = false := isDir_setName hj (by rw [h_dir, h_file])
  have h_dst₂ : (w₁.setName tmp j).names dst = w.names dst := by rw [h_names, Function.update_of_ne h_dst]
  have h_dst_dir : (w₁.setName tmp j).isDir dst = w.isDir dst := h_keeps.isDir h_dst₂
  have h_parent₂ : (w₁.setName tmp j).isDir dst.parent = true := by
    have h_ne : dst.parent ≠ tmp := fun h => by rw [h, h_temp] at h_parent; cases h_parent
    rw [h_keeps.isDir (by rw [h_names, Function.update_of_ne h_ne]), h_parent]
  -- what is left to be seen is whether the move succeeds
  have h_lands : faultErrno fs.tail.tail.head?.join = none → (w.names dst = some j ∨ w.isDir dst = false) →
      Lands w fs src dst tmp := fun h_move h_target =>
    ⟨h_link, h_move, by simp [hj₀], h_file, h_temp, h_parent, h_target.imp_left fun h => hj₀.trans h.symm⟩
  obtain ⟨h_no, x, h_exec⟩ | ⟨h_move, ⟨h_same, h_exec⟩ | ⟨h_other, h_target, h_exec⟩⟩ :=
    exec_renameat2_cases h_tmp h_tmp_dir h_parent₂ fs.tail.tail.head?.join
  · -- the destructor removes the new name
    refine ends_sys h_exec fun _ => ends_pure ⟨by simp, h_tmp_dir, fun e₃ => ?_⟩
    refine h_failed h_not (fun h => h_no ⟨h.move, ?_⟩) _ _ _ (h_vacated.setName_clearName h_temp)
    rw [h_dst₂, h_dst_dir, ← hj₀]
    exact h.target.imp_left Eq.symm
  · -- two names of one file: `rename` does nothing, and the temporary name stays
    rw [h_dst₂] at h_same
    exact ends_sys h_exec fun _ => ends_pure (h_twice h_not (h_lands h_move (.inl h_same))
      (hj₀.trans h_same.symm) _ _ _ h_keeps (by rw [h_names, hj₀]))
  · rw [h_dst₂] at h_other
    rw [h_dst_dir] at h_target
    refine ends_sys h_exec fun _ => ends_pure (h_moved h_not (h_lands h_move (.inr h_target))
      (fun h => h_other (h ▸ hj₀)) _ _ _ (h_keeps.trans (keeps_moveName _ _)) ?_)
    rw [moveName_names _ h_dst.symm, h_tmp, h_names, hj₀, Function.update_comm h_dst.symm,
      Function.update_idem, Function.update_comm h_dst]

/-! ### The whole function -/

/-- The inode that a `stat` of `q` reports, if it succeeds. -/
def lookedUp (w : FileSystem Tree) (f : Option Fault) (q : Path Tree) : Option ℕ :=
  if faultErrno f = none then (w.resolve q false).toOption else none

theorem exec_fstatat_cases (w : FileSystem Tree) (f : Option Fault) (q : Path Tree) :
    (lookedUp w f q = none ∧ ∃ x, exec w f (.fstatat q false) = (.error x, w)) ∨
      ∃ i, lookedUp w f q = some i ∧ exec w f (.fstatat q false) = (.ok (w.stat i), w) := by
  unfold lookedUp
  rcases hx : faultErrno f with _ | x
  · rw [if_pos rfl, exec_pass hx rfl]
    rcases h : w.resolve q false with x | i
    · refine .inl ⟨rfl, x, ?_⟩
      change (w.fstatat q false, w) = _
      simp [fstatat, h]
    · exact .inr ⟨i, rfl, answer_fstatat_of_resolve h⟩
  · rw [if_neg (by simp)]
    exact .inl ⟨rfl, x, exec_fail hx (by simp)⟩

/-- `HardlinkOneFile` finds the two files to be one already. -/
def FoundOne (w : FileSystem Tree) (fs : List (Option Fault)) (src dst : Path Tree) : Prop :=
  ∃ i, lookedUp w fs.head?.join src = some i ∧ lookedUp w fs.tail.head?.join dst = some i

/-- The faults that are left after the files were looked up. The second one is only where the first one was
found. -/
def faultsLeft (w : FileSystem Tree) (fs : List (Option Fault)) (src : Path Tree) : List (Option Fault) :=
  if lookedUp w fs.head?.join src = none then fs.tail else fs.tail.tail

/-- **`HardlinkOneFile`.** -/
theorem ends_hardlinkOneFile {Q : Outcome Bool → Errno → List (Option Fault) → FileSystem Tree → Prop}
    (h_one : FoundOne w fs src dst → ∀ e' fs', Q (.done true) e' fs' w)
    (h_fresh : ¬ FoundOne w fs src dst → ∀ e',
      (machine Tree).Ends A (hardlinkFresh tid src dst) e' (faultsLeft w fs src) w Q) :
    (machine Tree).Ends A (hardlinkOneFile tid src dst) e fs w Q := by
  unfold faultsLeft at h_fresh
  unfold hardlinkOneFile
  obtain ⟨h_none, x, h_exec⟩ | ⟨i, h_src, h_exec⟩ := exec_fstatat_cases w fs.head?.join src
  · rw [if_pos h_none] at h_fresh
    refine ends_sys h_exec fun _ => h_fresh ?_ _
    rintro ⟨i, hi, -⟩
    rw [h_none] at hi
    cases hi
  rw [if_neg (by simp [h_src])] at h_fresh
  refine ends_sys h_exec fun _ => ?_
  obtain ⟨h_none, x, h_exec'⟩ | ⟨j, h_dst, h_exec'⟩ := exec_fstatat_cases w fs.tail.head?.join dst
  · refine ends_sys h_exec' fun _ => h_fresh ?_ _
    rintro ⟨i, -, hi⟩
    rw [h_none] at hi
    cases hi
  · refine ends_sys h_exec' fun _ => ends_ite (fun h_same => ?_) fun h_diff => ?_
    · obtain rfl : i = j := h_same
      exact ends_pure (h_one ⟨i, h_src, h_dst⟩ _ _)
    · refine h_fresh ?_ _
      rintro ⟨k, hk, hk'⟩
      rw [h_src] at hk
      rw [h_dst] at hk'
      exact h_diff (Option.some.inj (hk.trans hk'.symm))

end GitlstreeFS.Cowfs
