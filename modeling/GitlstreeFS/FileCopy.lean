import GitlstreeFS.Cowfs.Handler
import GitlstreeFS.FileUtilFaults

/-!
# What `FileCopyInternal` copies

A copy that returns `true` has made a file with the content of the original and with attributes that were
set one after the other (`copiedAttr`). The last call takes some bits of the mode away again, and the times
that are set are the second and the third of `struct stat`. `isCopy_iff` says which originals this makes no
difference for.

The calls may fail, and the transfers come out short, as they like: only a run that returns `true` has to
come to the end of the function (`wlp_fileCopyInternal`).
-/

namespace GitlstreeFS

open Effect Posix FileSystem

variable {Root α : Type} [DecidableEq Root] {w w₁ : FileSystem Root} {target : Path Root} {i : ℕ}
  {d dst : Bytes} {a s : Attr} {fault : Option Fault} {f : OpenFile}

/-! ### The transfer -/

theorem writeAt_of_length_le (h : dst.length ≤ d.length) : writeAt dst 0 d = d := by
  unfold writeAt
  split
  · next h_nil =>
    rw [h_nil] at h ⊢
    exact List.eq_nil_of_length_eq_zero (Nat.le_zero.mp h)
  · rw [List.take_zero, Nat.zero_sub, List.replicate_zero, Nat.zero_add, List.drop_eq_nil_of_le h]
    simp

/-- The new file, if it can be opened. -/
theorem exec_openat_copy (ht : w.names target = none) {mode : Mode} {fd : OpenFile} {w₀ : FileSystem Root}
    (h : exec w fault (.openat target copyFlags mode) = (.ok fd, w₀)) :
    fd = ⟨w.next, .wronly, false⟩ ∧ ∃ a, Created w target ⟨.reg [], a⟩ w₀ := by
  have h_openat : w.openat target copyFlags mode = (.ok fd, w₀) := by
    rcases fault with _ | ⟨x⟩ | ⟨m⟩
    · exact h
    · cases h
    · exact h
  rw [FileSystem.openat, if_neg fun h => Bool.noConfusion h.2, follow_of_missing ht] at h_openat
  dsimp only at h_openat
  rw [ht] at h_openat
  change w.createFile target copyFlags mode = _ at h_openat
  cases h_parent : w.parentError target with
  | some x =>
    rw [createFile, makeNode, ht, h_parent] at h_openat
    cases h_openat
  | none =>
    rw [createFile, makeNode, ht, h_parent] at h_openat
    obtain ⟨h_fd, rfl⟩ := Prod.mk.inj h_openat
    exact ⟨(Except.ok.inj h_fd).symm, _, created_alloc w target (w.newInode (.reg []) mode)⟩

/-- **A transfer that is not short** leaves the content of the original. -/
theorem exec_sendfile_whole {out inp : OpenFile} (hin : (w.node inp.ino).kind = .reg d)
    (hout : (w.node out.ino).kind = .reg dst) (h_le : dst.length ≤ d.length) {r : FileSystem Root}
    (h : exec w fault (.sendfile out inp d.length) = (.ok d.length, r)) :
    r = w.setNode out.ino ⟨.reg d, (w.node out.ino).attr.written w.now⟩ := by
  have h_whole {n : ℕ} (h : w.sendfile out inp n = (.ok d.length, r)) :
      r = w.setNode out.ino ⟨.reg d, (w.node out.ino).attr.written w.now⟩ := by
    unfold FileSystem.sendfile at h
    split at h
    · cases h
    · rw [hin, hout] at h
      obtain ⟨h_length, rfl⟩ := Prod.mk.inj h
      have h_take : d.take (min n maxRwCount) = d := by
        refine List.take_of_length_le ?_
        have h_eq := Except.ok.inj h_length
        rw [List.length_take] at h_eq
        omega
      rw [h_take, writeAt_of_length_le h_le]
  rcases fault with _ | ⟨x⟩ | ⟨m⟩
  · exact h_whole h
  · cases h
  · exact h_whole h

/-- Allocating space may fail, or make the new file as long as the original. -/
theorem exec_posixFallocate (h₁ : Created w target ⟨.reg [], a⟩ w₁) (append : Bool) (n : ℕ)
    (fault : Option Fault) :
    ∃ r w₂ dst, exec w₁ fault (.posixFallocate ⟨w.next, .wronly, append⟩ n) = (.ok r, w₂) ∧
      Created w target ⟨.reg dst, a⟩ w₂ ∧ dst.length ≤ n := by
  by_cases h_fail : ∃ x, fault = some (.fail x)
  · obtain ⟨x, rfl⟩ := h_fail
    exact ⟨some x, w₁, [], rfl, h₁, Nat.zero_le n⟩
  · obtain ⟨r, hr⟩ := answer_posixFallocate (w := w₁) (f := ⟨w.next, .wronly, append⟩) (d := [])
      (by rw [h₁.node]) AccessMode.noConfusion n
    have h_pass : faultErrno fault = none := by
      rcases fault with _ | ⟨x⟩ | ⟨m⟩
      · rfl
      · exact absurd ⟨x, rfl⟩ h_fail
      · rfl
    by_cases h_zero : n = 0
    · rw [if_pos h_zero] at hr
      exact ⟨r, w₁, [], (exec_pass h_pass rfl).trans hr, h₁, Nat.zero_le n⟩
    · rw [if_neg h_zero] at hr
      refine ⟨r, _, resize [] n, (exec_pass h_pass rfl).trans hr, ?_, by simp [resize]⟩
      rw [h₁.node, List.length_nil, Nat.max_zero]
      exact h₁.setNode _

/-! ### The attributes -/

/-- The attributes of a copy, when the calls that set them come at these times. -/
def copiedAttr (a s : Attr) (now₁ now₂ now₃ : ℕ) : Attr :=
  ((a.chmod now₁ s.mode).utimes now₂ (some s.mtime) (some s.ctime)).chown now₃ (some s.uid) (some s.gid)

theorem copiedAttr_eq (a s : Attr) (now₁ now₂ now₃ : ℕ) : copiedAttr a s now₁ now₂ now₃
    = { mode := s.mode.chowned, uid := s.uid, gid := s.gid, atime := s.mtime, mtime := s.ctime,
        ctime := now₃, xattr := a.xattr } := rfl

/-- The file `target` of `w'` has what the inode `i` has in `w`. -/
def IsCopy (w : FileSystem Root) (i : ℕ) (target : Path Root) (w' : FileSystem Root) : Prop :=
  ∃ n, w'.inode? target = some n ∧ n.kind = (w.node i).kind ∧ n.attr.mode = (w.node i).attr.mode ∧
    n.attr.uid = (w.node i).attr.uid ∧ n.attr.gid = (w.node i).attr.gid ∧
    n.attr.atime = (w.node i).attr.atime ∧ n.attr.mtime = (w.node i).attr.mtime

/-- No set-ID bit that a `chown` clears, and three times that are the same. -/
def Plain (s : Attr) : Prop :=
  s.mode.chowned = s.mode ∧ s.mtime = s.atime ∧ s.ctime = s.mtime

instance (s : Attr) : Decidable (Plain s) :=
  inferInstanceAs (Decidable (_ ∧ _))

/-! ### The run -/

theorem wlp_sys {c : SysCall Root} {k : Except Errno c.Val → Proc Root α} {Q : α → FileSystem Root → Prop}
    (h : ∀ fault, (machine Root).Wlp (k (exec w fault c).1) (exec w fault c).2 Q) :
    (machine Root).Wlp (sys c >>= k) w Q :=
  Machine.wlp_call h

theorem exec_close (fault : Option Fault) (f : OpenFile) : (exec w fault (.close f)).2 = w := by
  rcases fault with _ | ⟨x⟩ | ⟨m⟩ <;> rfl

/-- One of the calls that set the attributes of the new file. -/
theorem wlp_setAttr {c : SysCall Root} {g : Attr → Attr} {k : Except Errno c.Val → Proc Root Bool}
    {Q : FileSystem Root → Prop} (h₁ : Created w target ⟨.reg d, a⟩ w₁) (hc : transfers c = false)
    (hc' : ∀ fd n, c ≠ .posixFallocate fd n) {v : c.Val}
    (h_answer : answer w₁ c = (.ok v, w₁.setAttr w.next g)) (h_error : ∀ x, k (.error x) = pure false)
    (h_ok : ∀ w₂, Created w target ⟨.reg d, g a⟩ w₂ →
      (machine Root).Wlp (k (.ok v)) w₂ fun b w' => b = true → Q w') :
    (machine Root).Wlp (sys c >>= k) w₁ fun b w' => b = true → Q w' := by
  refine wlp_sys fun fault => ?_
  rcases h : faultErrno fault with _ | x
  · rw [exec_pass h hc, h_answer]
    exact h_ok _ (h₁.setAttr g)
  · rw [exec_fail h hc', h_error]
    exact Machine.wlp_ret fun h => Bool.noConfusion h

/-- The copy was given up, or the file `target` was made with this content and the attributes `s`. -/
def Copied (w : FileSystem Root) (target : Path Root) (d : Bytes) (s : Attr) (b : Bool)
    (w' : FileSystem Root) : Prop :=
  b = true → ∃ a now₁ now₂ now₃, Created w target ⟨.reg d, copiedAttr a s now₁ now₂ now₃⟩ w'

/-- **A copy that returns `true`** has made a file with the content of the original. -/
theorem wlp_fileCopyInternal (hk : (w.node f.ino).kind = .reg d) (h_lt : f.ino < w.next)
    (ht : w.names target = none) :
    (machine Root).Wlp (fileCopyInternal f (w.stat f.ino) target) w
      (Copied w target d (w.node f.ino).attr) := by
  have h_size : (w.stat f.ino).size = d.length := by simp [stat, hk, Kind.size]
  -- where it returns `false` there is nothing to prove
  have h_not {v : FileSystem Root} : (machine Root).Wlp (pure false : Proc Root Bool) v
      (Copied w target d (w.node f.ino).attr) :=
    Machine.wlp_ret fun h => Bool.noConfusion h
  unfold fileCopyInternal
  refine wlp_sys fun fault => ?_
  rcases h_open : exec w fault (.openat target copyFlags (w.stat f.ino).attr.mode) with ⟨x | fd, w₀⟩
  · exact h_not
  obtain ⟨rfl, a, h₀⟩ := exec_openat_copy ht h_open
  refine Machine.wlp_bind (Machine.Wlp.mono (Q := Copied w target d (w.node f.ino).attr) ?_
    fun b w' h => wlp_sys fun fault => ?_)
  case refine_2 =>
    rw [exec_close]
    exact Machine.wlp_ret h
  unfold fileCopyOpened
  refine wlp_sys fun fault => ?_
  obtain ⟨r, w₁, dst, h_alloc, h₁, h_dst⟩ := exec_posixFallocate h₀ false (w.stat f.ino).size fault
  rw [h_alloc]
  refine wlp_sys fun fault => ?_
  rw [h_size] at h_dst ⊢
  rcases h_send : exec w₁ fault (.sendfile ⟨w.next, .wronly, false⟩ f d.length) with ⟨x | n, w₂⟩
  · exact h_not
  dsimp only
  by_cases h_whole : n = d.length
  case neg =>
    rw [if_pos h_whole]
    exact h_not
  subst h_whole
  have h_from : (w₁.node f.ino).kind = .reg d := by rw [h₁.keeps.node _ h_lt, hk]
  rw [exec_sendfile_whole h_from (by rw [h₁.node]) h_dst h_send, if_neg (not_not.mpr rfl)]
  have h₂ := h₁.setNode ⟨.reg d, (w₁.node w.next).attr.written w₁.now⟩
  generalize w₁.setNode w.next _ = w₂ at h₂
  -- the whole content is there; three calls set the attributes
  refine wlp_setAttr h₂ rfl (by simp) (answer_fchmod _ _) (fun x => rfl) fun w₃ h₃ => ?_
  refine wlp_setAttr h₃ rfl (by simp) (answer_futimens _ _ _) (fun x => rfl) fun w₄ h₄ => ?_
  refine wlp_setAttr h₄ rfl (by simp) (answer_fchown _ _ _) (fun x => rfl) fun w₅ h₅ => ?_
  exact Machine.wlp_ret fun _ => ⟨_, _, _, _, h₅⟩

/-! ### The theorem -/

theorem isCopy_of_created {n : Inode Root} {w' : FileSystem Root} (h : Created w target n w') :
    w'.inode? target = some n := by
  rw [inode?, h.names, Function.update_self, Option.map_some, h.node]

/-- **The copy is faithful** just if the original has no set-ID bit that a `chown` clears, and three times
that are the same. -/
theorem isCopy_iff (hk : (w.node f.ino).kind = .reg d) (h_lt : f.ino < w.next) (ht : w.names target = none)
    (e : Errno) (faults : List (Option Fault))
    (h_true : ((machine Root).run (fileCopyInternal f (w.stat f.ino) target) e faults w).outcome = .done true) :
    IsCopy w f.ino target
        ((machine Root).run (fileCopyInternal f (w.stat f.ino) target) e faults w).state ↔
      Plain (w.node f.ino).attr := by
  obtain ⟨a, now₁, now₂, now₃, h_created⟩ := wlp_fileCopyInternal hk h_lt ht e faults true h_true rfl
  have h_inode := isCopy_of_created h_created
  rw [copiedAttr_eq] at h_inode
  constructor
  · rintro ⟨n, h_n, -, h_mode, -, -, h_atime, h_mtime⟩
    obtain rfl := Option.some.inj (h_inode.symm.trans h_n)
    exact ⟨h_mode, h_atime, h_mtime⟩
  · rintro ⟨h_mode, h_atime, h_mtime⟩
    exact ⟨_, h_inode, hk.symm, h_mode, rfl, rfl, h_atime, h_mtime⟩

/-! ### Two files -/

namespace Cowfs

/-- A mount with one file `a`, of these attributes. -/
def oneFile (s : Attr) : FileSystem Tree :=
  (emptyMount.alloc ⟨.reg [120], s⟩).setName fileA 2

/-- The file `a`, open for reading. -/
def openA : OpenFile := ⟨2, .rdonly, false⟩

/-- A script that was not changed since it was made, and not read either. -/
def plainAttr : Attr := ⟨0o755#12, 7, 7, 1, 1, 1, []⟩

theorem isCopy_iff_plain :
    IsCopy (oneFile plainAttr) 2 fileB ((machine Tree).run
        (fileCopyInternal openA ((oneFile plainAttr).stat 2) fileB) .EINVAL [] (oneFile plainAttr)).state ↔
      Plain plainAttr :=
  isCopy_iff (w := oneFile plainAttr) (f := openA) (d := [120]) (by decide +kernel) (by decide +kernel)
    (by decide +kernel) .EINVAL [] (by decide +kernel)

/-- A set-user-ID program, changed at 1, read at 2 and linked at 3. -/
def programAttr : Attr := ⟨0o4755#12, 7, 7, 2, 1, 3, []⟩

/-- Its copy is one that was read at 1 and changed at 3, and the set-user-ID bit is gone. -/
theorem not_isCopy_program :
    ((machine Tree).run (fileCopyInternal openA ((oneFile programAttr).stat 2) fileB) .EINVAL []
        (oneFile programAttr)).outcome = .done true ∧
      ¬ IsCopy (oneFile programAttr) 2 fileB ((machine Tree).run
        (fileCopyInternal openA ((oneFile programAttr).stat 2) fileB) .EINVAL [] (oneFile programAttr)).state := by
  refine ⟨by decide +kernel, ?_⟩
  rintro ⟨n, h_n, -, -, -, -, h_atime, -⟩
  have h_attr : (((machine Tree).run (fileCopyInternal openA ((oneFile programAttr).stat 2) fileB) .EINVAL []
      (oneFile programAttr)).state.inode? fileB).map (fun n => n.attr.atime) = some 1 := by
    decide +kernel
  rw [h_n, Option.map_some, h_atime] at h_attr
  exact absurd h_attr (by decide +kernel)

end Cowfs

end GitlstreeFS
