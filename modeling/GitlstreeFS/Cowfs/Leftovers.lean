import GitlstreeFS.FileCopy
import GitlstreeFS.Cowfs.Guard
import GitlstreeFS.Cowfs.Hardlink
import GitlstreeFS.Cowfs.Serving

/-!
# What failures leave behind

Any call of `HardlinkOneFile` and `MaybeBreakHardlink` may fail, and a `sendfile` may come out short. Neither
function is to end the process, to leave a name that it has made for itself, or to lose the file.

Three things go wrong. A temporary file whose copy failed is forgotten, not removed (`CopyFails`). A file that
is linked onto another name of itself keeps the temporary name, since the rename does nothing then; this is
where `HardlinkOneFile` did not find out, a `stat` having failed. And two errors end the process: one of the
constructor of the temporary file (`Refused`), and one of the open that precedes the collection of the
repository file (`CollectSlips`).

`HardlinkSlips` and `MaybeBreakSlips` put this together, call by call in the order of the faults.
-/

namespace GitlstreeFS.Cowfs

open Effect Posix FileSystem

variable {sha1 : Bytes → Bytes} {tid : ℕ} {w w' v : FileSystem Tree} {p q src dst tmp : Path Tree} {i j : ℕ}
  {d : Bytes} {e : Errno} {fs : List (Option Fault)} {f : OpenFile}
  {A : (c : SysCall Tree) → FileSystem Tree → Except Errno c.Val → Bool}

/-! ### Copies under faults -/

/-- One of the next `n` calls fails. -/
def SomeFails : ℕ → List (Option Fault) → Prop
  | 0, _ => False
  | n + 1, fs => faultErrno fs.head?.join ≠ none ∨ SomeFails n fs.tail

/-- A copy of a file of this kind fails from the `sendfile` on: what is no regular file cannot be sent, a
`sendfile` fails or comes out short, or one of the three attributes cannot be set. -/
def CopyFails (k : Kind Tree) (fs : List (Option Fault)) : Prop :=
  (∀ d, k = .reg d → CutShort d fs.head?.join) ∨ SomeFails 3 fs.tail

/-- A `close` changes nothing, whatever it comes to. -/
theorem exec_close_any (w : FileSystem Tree) (f : OpenFile) (fault : Option Fault) :
    ∃ r, exec w fault (.close f) = (r, w) := by
  rcases hx : faultErrno fault with _ | x
  · exact ⟨_, (exec_pass hx rfl).trans (answer_close f)⟩
  · exact ⟨_, exec_fail hx (by simp)⟩

/-- What is no regular file cannot be sent. -/
theorem exec_sendfile_special (out inp : OpenFile) (h : ∀ d, (w.node inp.ino).kind ≠ .reg d) (n : ℕ)
    (fault : Option Fault) : ∃ x, exec w fault (.sendfile out inp n) = (.error x, w) := by
  have h_error : ∀ m, ∃ x, w.sendfile out inp m = (.error x, w) := by
    intro m
    unfold FileSystem.sendfile
    split
    · exact ⟨_, rfl⟩
    · split
      · next hk _ => exact absurd hk (h _)
      · exact ⟨_, rfl⟩
  rcases fault with _ | ⟨x⟩ | ⟨m⟩
  · exact h_error n
  · exact ⟨x, rfl⟩
  · exact h_error (min n m)

/-- A call that sets an attribute of the new file. -/
theorem ends_setAttr {α : Type} {c : SysCall Tree} {g : Attr → Attr} {data : Bytes} {a : Attr} {n : ℕ}
    {k : Except Errno c.Val → Proc Tree α} {Q : Outcome α → Errno → List (Option Fault) → FileSystem Tree → Prop}
    (h : Created w tmp ⟨.reg data, a⟩ v) (hc : transfers c = false)
    (hc' : ∀ fd n, c ≠ .posixFallocate fd n) {r : c.Val}
    (h_answer : answer v c = (.ok r, v.setAttr w.next g))
    (h_error : SomeFails (n + 1) fs → ∀ x e',
      (machine Tree).Ends A (k (.error x)) e' fs.tail v Q)
    (h_ok : ∀ e' v', Created w tmp ⟨.reg data, g a⟩ v' → (SomeFails (n + 1) fs ↔ SomeFails n fs.tail) →
      (machine Tree).Ends A (k (.ok r)) e' fs.tail v' Q) :
    (machine Tree).Ends A (sys c >>= k) e fs v Q := by
  rcases hx : faultErrno fs.head?.join with _ | x
  · refine ends_sys ((exec_pass hx hc).trans h_answer) fun _ => h_ok _ _ (h.setAttr g) ?_
    rw [SomeFails, hx]
    simp
  · refine ends_sys (exec_fail hx hc') fun _ => h_error ?_ _ _
    rw [SomeFails, hx]
    simp

/-- **`FileCopyInternal`** of any inode, to a name that is free. -/
theorem ends_fileCopyInternal {Q : Outcome Bool → Errno → List (Option Fault) → FileSystem Tree → Prop}
    {st : Stat} (h_size : st.size = (w.node f.ino).kind.size) (h_attr : st.attr = (w.node f.ino).attr)
    (ha : f.access ≠ .wronly) (h_lt : f.ino < w.next) (ht : w.names tmp = none) (hp : w.isDir tmp.parent = true)
    (h_closed : faultErrno fs.head?.join ≠ none → ∀ e' fs', Q (.done false) e' fs' w)
    (h_failed : faultErrno fs.head?.join = none → CopyFails (w.node f.ino).kind fs.tail.tail →
      ∀ e' fs' w' data a, Created w tmp ⟨.reg data, a⟩ w' → Q (.done false) e' fs' w')
    (h_copied : faultErrno fs.head?.join = none → ¬ CopyFails (w.node f.ino).kind fs.tail.tail →
      ∀ e' w' d now₁ now₂ now₃ a, (w.node f.ino).kind = .reg d →
        Created w tmp ⟨.reg d, copiedAttr a (w.node f.ino).attr now₁ now₂ now₃⟩ w' →
        Q (.done true) e' (fs.drop 7) w') :
    (machine Tree).Ends A (fileCopyInternal f st tmp) e fs w Q := by
  unfold fileCopyInternal
  rcases hx : faultErrno fs.head?.join with _ | x
  swap
  · exact ends_sys (exec_fail hx (by simp)) fun _ => ends_pure (h_closed (by simp [hx]) _ _)
  specialize h_failed hx
  specialize h_copied hx
  refine ends_sys ((exec_pass hx rfl).trans (answer_openat_create ht hp rfl _)) fun _ => ?_
  have h₀ := created_alloc w tmp (w.newInode (.reg []) st.attr.mode)
  generalize (w.alloc _).setName tmp w.next = w₀ at h₀
  -- what is left once the copy failed: the new file is closed, and stays
  have h_give_up : CopyFails (w.node f.ino).kind fs.tail.tail → ∀ e' fs' v data a,
      Created w tmp ⟨.reg data, a⟩ v → (machine Tree).Ends A (pure false : Proc Tree Bool) e' fs' v
        fun o e'' fs'' w'' => o.Split (fun b => (machine Tree).Ends A
          (sys (.close ⟨w.next, copyFlags.access, copyFlags.append⟩) >>= fun _ => pure b) e'' fs'' w'' Q)
          (Q .aborted e'' fs'' w'') (Q .stuck e'' fs'' w'') := by
    intro h_fails e' fs' v data a h_created
    obtain ⟨r, h_close⟩ := exec_close_any v ⟨w.next, copyFlags.access, copyFlags.append⟩ fs'.head?.join
    exact ends_pure (ends_sys h_close fun _ => ends_pure (h_failed h_fails _ _ _ _ _ h_created))
  refine ends_bind ?_
  unfold fileCopyOpened
  obtain ⟨r, w₁, dst, h_alloc, h₁, h_le⟩ :=
    exec_posixFallocate h₀ copyFlags.append st.size fs.tail.head?.join
  refine ends_sys h_alloc fun _ => ?_
  have h_kind : (w₁.node f.ino).kind = (w.node f.ino).kind := by rw [h₁.keeps.node _ h_lt]
  by_cases h_reg : ∃ d, (w.node f.ino).kind = .reg d
  swap
  · push Not at h_reg
    obtain ⟨x, h_send⟩ := exec_sendfile_special ⟨w.next, copyFlags.access, copyFlags.append⟩ f
      (fun d => by rw [h_kind]; exact h_reg d) st.size fs.tail.tail.head?.join
    refine ends_sys h_send fun _ => h_give_up (.inl fun d hd => absurd hd (h_reg d)) _ _ _ _ _ h₁
  obtain ⟨d, hk⟩ := h_reg
  rw [hk, Kind.size] at h_size
  rw [h_size] at h_le ⊢
  rw [hk] at h_kind h_give_up h_copied
  obtain ⟨x, hx, h_send⟩ | ⟨n, d', hx, h_short, h_send⟩ :=
    exec_sendfile ⟨w.next, copyFlags.access, copyFlags.append⟩ dst h_kind (by rw [h₁.node]) ha
      AccessMode.noConfusion fs.tail.tail.head?.join
  · -- the transfer fails
    refine ends_sys h_send fun _ => h_give_up (.inl fun d' hd' => ?_) _ _ _ _ _ h₁
    obtain rfl : d = d' := by simpa using hd'
    exact cutShort_of_fail hx
  have h_cut : CopyFails (.reg d) fs.tail.tail ↔
      n ≠ d.length ∨ SomeFails 3 fs.tail.tail.tail := by
    unfold CopyFails
    simp [h_short]
  rw [h_cut] at h_give_up h_copied
  refine ends_sys h_send fun _ => ends_ite (fun h_ne => ?_) fun h_eq => ?_
  · -- it comes out short
    exact h_give_up (.inl h_ne) _ _ _ _ _ (h₁.setNode _)
  obtain rfl : n = d.length := not_not.mp h_eq
  rw [exec_sendfile_whole h_kind (by rw [h₁.node]) h_le h_send]
  have h₂ := h₁.setNode ⟨.reg d, (w₁.node w.next).attr.written w₁.now⟩
  -- the whole content is there; the three calls that follow set the attributes
  refine ends_setAttr h₂ rfl (by simp) (answer_fchmod _ _) (fun h x e' => h_give_up (.inr h) _ _ _ _ _ h₂)
    fun e₃ w₃ h₃ h_fails => ?_
  rw [h_fails] at h_give_up h_copied
  refine ends_setAttr h₃ rfl (by simp) (answer_futimens _ _ _) (fun h x e' => h_give_up (.inr h) _ _ _ _ _ h₃)
    fun e₄ w₄ h₄ h_fails => ?_
  rw [h_fails] at h_give_up h_copied
  refine ends_setAttr h₄ rfl (by simp) (answer_fchown _ _ _) (fun h x e' => h_give_up (.inr h) _ _ _ _ _ h₄)
    fun e₅ w₅ h₅ h_fails => ?_
  rw [h_fails] at h_copied
  obtain ⟨r', h_close⟩ := exec_close_any w₅ ⟨w.next, copyFlags.access, copyFlags.append⟩
    fs.tail.tail.tail.tail.tail.tail.head?.join
  refine ends_pure (ends_sys h_close fun _ => ends_pure ?_)
  rw [h_attr] at h₅
  have h_done := h_copied (by simp [SomeFails]) (errnoAfter e₅ r') w₅ d _ _ _ _ rfl h₅
  simpa only [← List.drop_one, List.drop_drop] using h_done

/-! ### The collection under faults -/

/-- A call that changes nothing but names of the repository, which it removes. -/
def SparesFiles : SysCall Tree → Prop
  | .close _ => True
  | .fstat _ => True
  | .fstatat .. => True
  | .read .. => True
  | .unlinkat r => r.root = .repository
  | _ => False

/-- The working files of `v` are those of `w`. -/
structure SameFiles (w v : FileSystem Tree) : Prop where
  node : v.node = w.node
  names : ∀ q, q.root = .workdir → v.names q = w.names q

theorem sameFiles_exec {c : SysCall Tree} (hc : SparesFiles c) (h : SameFiles w v) (fault : Option Fault) :
    SameFiles w (exec v fault c).2 := by
  have h_keep : (exec v fault c).2 = v → SameFiles w (exec v fault c).2 := by
    intro h_eq
    rwa [h_eq]
  rcases hx : faultErrno fault with _ | x
  · cases c with
    | unlinkat r =>
      rw [exec_pass hx rfl]
      change SameFiles w (v.unlinkat r).2
      unfold FileSystem.unlinkat
      split
      · exact h
      · split
        · exact h
        · refine ⟨h.node, fun q hq => ?_⟩
          rw [clearName_names, Function.update_of_ne (ne_of_root hq hc), h.names q hq]
    | read fd n =>
      refine h_keep ?_
      rcases fault with _ | ⟨x⟩ | ⟨m⟩ <;> rfl
    | close fd => exact h_keep (by rw [exec_pass hx rfl]; rfl)
    | fstat fd => exact h_keep (by rw [exec_pass hx rfl]; rfl)
    | fstatat r nofollow => exact h_keep (by rw [exec_pass hx rfl]; rfl)
    | _ => exact hc.elim
  · refine h_keep ?_
    rw [exec_fail hx fun fd n h_eq => by subst h_eq; exact hc]

theorem total_readOpened (fd : OpenFile) : (readOpened fd : Proc Tree (Option Bytes)).Total := by
  rintro (x | st)
  · trivial
  · rintro (x | r) <;> trivial

theorem calls_readOpened (fd : OpenFile) : (readOpened fd : Proc Tree (Option Bytes)).Calls SparesFiles := by
  refine ⟨trivial, ?_⟩
  rintro (x | st)
  · trivial
  · refine ⟨trivial, ?_⟩
    rintro (x | r) <;> trivial

theorem calls_garbageCollectOneRepoFile {r : Path Tree} (h : r.root = .repository) :
    (garbageCollectOneRepoFile r).Calls SparesFiles := by
  unfold garbageCollectOneRepoFile
  refine Prog.Calls.bind ⟨trivial, fun _ => trivial⟩ fun st => ?_
  rcases st with x | st
  · trivial
  · dsimp only
    split
    · refine Prog.Calls.bind ⟨h, fun _ => trivial⟩ fun r => ?_
      rcases r with x | u
      · exact fun _ => trivial
      · trivial
    · trivial

/-- **The collection** of the repository file of a file that may be read: an open that fails ends the
process, and no working file is changed. -/
theorem ends_maybeGc {Q : Outcome Bool → Errno → List (Option Fault) → FileSystem Tree → Prop}
    (hi : w.names p = some i) (hk : (w.node i).kind = .reg d) (h_read : w.cred.permits (w.node i).attr 2)
    (h_abort : faultErrno fs.head?.join ≠ none → ∀ e' fs', Q .aborted e' fs' w)
    (h_done : faultErrno fs.head?.join = none → ∀ b e' fs' v, SameFiles w v → Q (.done b) e' fs' v) :
    (machine Tree).Ends A (maybeGcAfterHardlinkBreakForTarget sha1 p) e fs w Q := by
  unfold maybeGcAfterHardlinkBreakForTarget getRepoItemPath readFromFile
  rw [bind_assoc, bind_assoc]
  rcases hx : faultErrno fs.head?.join with _ | x
  swap
  · exact ends_sys (exec_fail hx (by simp)) fun _ => Machine.ends_abort (h_abort (by simp [hx]) _ _)
  refine ends_sys ((exec_pass hx rfl).trans (answer_openat_rdonly hi hk h_read 0)) fun _ => ?_
  refine Machine.ends_of_total (I := SameFiles w) (P := SparesFiles) ?_ ?_
    (fun fault c v hc hv => sameFiles_exec hc hv fault) ⟨rfl, fun _ _ => rfl⟩ (h_done hx)
  · refine Prog.Total.bind ((total_readOpened _).bind fun r _ => trivial) ?_
    rintro (_ | buf)
    · trivial
    · exact total_garbageCollectOneRepoFile _
  · refine Prog.Calls.bind ((calls_readOpened _).bind fun r => ⟨trivial, fun _ => trivial⟩) ?_
    rintro (_ | buf)
    · trivial
    · exact calls_garbageCollectOneRepoFile (repoPath_root sha1 buf)

/-! ### What is not to be left behind -/

/-- The name `q` is free now, or what it was. -/
def NotMade (w w' : FileSystem Tree) (q : Path Tree) : Prop :=
  w'.names q = none ∨ w'.names q = w.names q

/-- The file `q` is there just if it was, and has the content it had. -/
structure Kept (w w' : FileSystem Tree) (q : Path Tree) : Prop where
  there : w'.names q = none ↔ w.names q = none
  content : ∀ d, w.content q = some d → w'.content q = some d

theorem kept_of_names (h_keeps : Keeps w w') (h : w'.names q = w.names q) : Kept w w' q :=
  ⟨by rw [h], fun d hd => by rw [h_keeps.content h, hd]⟩

theorem Vacated.kept (h : Vacated w w' tmp) (h_ne : q ≠ tmp) : Kept w w' q :=
  kept_of_names h.keeps (h.names_of_ne h_ne)

theorem Vacated.notMade (h : Vacated w w' tmp) : NotMade w w' tmp := by
  unfold NotMade
  rw [h.names]
  split
  · exact .inr rfl
  · exact .inl (Function.update_self _ _ _)

/-- `HardlinkOneFile` leaves no trace: it returns, its temporary name is not there, and where it returned
`false`, both files are what they were. -/
def HardlinkTraceless (tid : ℕ) (src dst : Path Tree) (w : FileSystem Tree) (o : Outcome Bool)
    (w' : FileSystem Tree) : Prop :=
  ∃ b, o = .done b ∧ NotMade w w' (tmpName dst "of".toList tid) ∧ (b = false → Kept w w' src ∧ Kept w w' dst)

/-- `HardlinkOneFile` does not find the files to be one, and the constructor of the temporary file ends the
process, or they are one nevertheless and the rename does nothing. -/
def HardlinkSlips (tid : ℕ) (src dst : Path Tree) (fs : List (Option Fault)) (w : FileSystem Tree) : Prop :=
  ¬ FoundOne w fs src dst ∧
    (Refused w (faultsLeft w fs src).head?.join (tmpName dst "of".toList tid) ∨
      ¬ Refused w (faultsLeft w fs src).head?.join (tmpName dst "of".toList tid) ∧
        Lands w (faultsLeft w fs src) src dst (tmpName dst "of".toList tid) ∧ w.names src = w.names dst ∧
        w.names (tmpName dst "of".toList tid) ≠ w.names src)

/-- **`HardlinkOneFile`**, with files in different directory trees. -/
theorem ends_hardlinkOneFile_traceless (h_roots : src.root ≠ dst.root) :
    (machine Tree).Ends (cleansUp (tmpName dst "of".toList tid)) (hardlinkOneFile tid src dst) e fs w
      fun o _ _ w' => HardlinkTraceless tid src dst w o w' ↔ ¬ HardlinkSlips tid src dst fs w := by
  have h_src : src ≠ tmpName dst "of".toList tid := by
    rintro rfl
    exact h_roots (Path.append_root dst _)
  have h_dst : dst ≠ tmpName dst "of".toList tid := (tmpName_ne dst _ tid).symm
  refine ends_hardlinkOneFile (fun h_one e' fs' => ?_) fun h_one e' => ?_
  · -- the two are one file, and nothing was done
    exact iff_of_true ⟨true, rfl, .inr rfl, fun h => by cases h⟩ fun h => h.1 h_one
  have h_slips : ¬ HardlinkSlips tid src dst fs w ↔ ¬ (Refused w _ _ ∨ _) :=
    not_congr (and_iff_right h_one)
  refine ends_hardlinkFresh rfl (removes_cleansUp _) h_src (fun h e' => ?_) (fun h h_no _ _ w' h_vacated => ?_)
    (fun h h_lands h_same _ _ w' _ h_names => ?_) fun h h_lands h_other _ _ w' h_keeps h_names => ?_
  · -- the process is gone
    rw [h_slips]
    refine iff_of_false ?_ (not_not.mpr (.inl h))
    rintro ⟨b, h_done, -⟩
    cases h_done
  · -- it failed: the temporary name was not made, and both files are as they were
    rw [h_slips]
    refine iff_of_true ⟨false, rfl, h_vacated.notMade, fun _ => ⟨h_vacated.kept h_src, h_vacated.kept h_dst⟩⟩ ?_
    rintro (h_refused | ⟨-, h_lands, -⟩)
    · exact h h_refused
    · exact h_no h_lands
  · -- the temporary name is there, unless it was one of the file before
    rw [h_slips]
    have h_tmp : w'.names (tmpName dst "of".toList tid) = w.names src := by rw [h_names, Function.update_self]
    constructor
    · rintro ⟨b, -, h_made, -⟩ (h_refused | ⟨-, -, -, h_ne⟩)
      · exact h h_refused
      · unfold NotMade at h_made
        rw [h_tmp] at h_made
        exact h_made.elim h_lands.there fun h_eq => h_ne h_eq.symm
    · intro h_not
      refine ⟨true, rfl, .inr (h_tmp.trans ?_), fun h => by cases h⟩
      by_contra h_ne
      exact h_not (.inr ⟨h, h_lands, h_same, fun h_eq => h_ne h_eq.symm⟩)
  · -- the new link took the place of the other file, and its temporary name is gone
    rw [h_slips]
    refine iff_of_true ⟨true, rfl, .inl ?_, fun h => by cases h⟩ ?_
    · rw [h_names, Function.update_of_ne h_dst.symm, Function.update_self]
    · rintro (h_refused | ⟨-, -, h_same, -⟩)
      · exact h h_refused
      · exact h_other h_same

/-! ### Breaking a link -/

/-- From the rename on: the copy takes the place of the file, and the open that follows fails. -/
def CollectSlips (fs : List (Option Fault)) : Prop :=
  faultErrno fs.head?.join = none ∧ faultErrno fs.tail.head?.join ≠ none

/-- From the open of the temporary file on: it is made, and then the copy of the file of kind `k` fails, or
the process ends when all is done. -/
def CopySlips (k : Kind Tree) (fs : List (Option Fault)) : Prop :=
  faultErrno fs.head?.join = none ∧
    (CopyFails k fs.tail.tail ∨ ¬ CopyFails k fs.tail.tail ∧ CollectSlips (fs.drop 8))

/-- From the `fstat` of the target on, which is open on the inode `i`: the inode has other names, and the
constructor of the temporary file ends the process or the copy slips. -/
def OpenedSlips (tid : ℕ) (w : FileSystem Tree) (p : Path Tree) (i : ℕ) (fs : List (Option Fault)) : Prop :=
  faultErrno fs.head?.join = none ∧ w.stNlink i ≠ 1 ∧
    (Refused w fs.tail.head?.join (tmpName p "mb".toList tid) ∨
      ¬ Refused w fs.tail.head?.join (tmpName p "mb".toList tid) ∧
        w.isDir (tmpName p "mb".toList tid) = false ∧ CopySlips (w.node i).kind fs.tail.tail)

/-- What comes of a part of the function: it slips, and the process ends or leaves the temporary name behind,
or it returns and leaves nothing. -/
structure Verdict {α : Type} (slips : Prop) (w : FileSystem Tree) (p tmp : Path Tree) (o : Outcome α)
    (w' : FileSystem Tree) : Prop where
  slipped : slips → o = .aborted ∨ (∃ b, o = .done b) ∧ ¬ NotMade w w' tmp
  clean : ¬ slips → (∃ b, o = .done b) ∧ NotMade w w' tmp ∧ Kept w w' p

theorem verdict_clean {α : Type} {slips : Prop} {a : α} (h : ¬ slips) (h_made : NotMade w w' tmp)
    (h_kept : Kept w w' p) : Verdict slips w p tmp (.done a) w' :=
  ⟨fun h_slips => absurd h_slips h, fun _ => ⟨⟨a, rfl⟩, h_made, h_kept⟩⟩

theorem verdict_aborted {α : Type} {slips : Prop} (h : slips) :
    Verdict slips w p tmp (.aborted : Outcome α) w' :=
  ⟨fun _ => .inl rfl, fun h_not => absurd h h_not⟩

/-- A new file at the temporary name is left behind. -/
theorem verdict_created {α : Type} {slips : Prop} {a : α} {n : Inode Tree} (h : slips) (h_vacated : Vacated w v tmp)
    (h_created : Created v tmp n w') : Verdict slips w p tmp (.done a) w' := by
  refine ⟨fun _ => .inr ⟨⟨a, rfl⟩, ?_⟩, fun h_not => absurd h h_not⟩
  have h_tmp : w'.names tmp = some v.next := by rw [h_created.names, Function.update_self]
  rintro (h_none | h_same)
  · rw [h_tmp] at h_none
    cases h_none
  · rw [h_tmp] at h_same
    exact w.names_ne_next tmp h_vacated.keeps.next h_same.symm

/-- The postcondition of a scope of the temporary file that comes to such a verdict. -/
def ScopeVerdict {α : Type} (slips : Prop) (w : FileSystem Tree) (p tmp : Path Tree) (o : Outcome (α × Bool))
    (w' : FileSystem Tree) : Prop :=
  o.Split (fun r => if r.2 then w'.names tmp ≠ none ∧ w'.isDir tmp = false ∧
      Verdict slips w p tmp (.done r.1) (w'.clearName tmp) else Verdict slips w p tmp (.done r.1) w')
    (Verdict slips w p tmp (.aborted : Outcome α) w') (Verdict slips w p tmp (.stuck : Outcome α) w')

/-- A path that resolves to a regular file is one of it or a symbolic link. -/
theorem target_of_resolve (h_resolve : w.resolve p false = .ok i) (hk : (w.node i).kind = .reg d) :
    w.names p ≠ none ∧ w.isDir p = false ∧ ∀ d', w.content p = some d' → d' = d := by
  rcases hj : w.names p with _ | j
  · rw [resolve_missing hj] at h_resolve
    cases h_resolve
  have h_dir : w.isDir p = true ↔ (w.node j).kind = .dir := by
    rw [isDir_iff, kind?_of_names hj, Option.some.injEq]
  have h_content : ∀ {d'}, w.content p = some d' ↔ (w.node j).kind = .reg d' := by
    intro d'
    rw [content_iff, kind?_of_names hj, Option.some.injEq]
  by_cases h_link : ∃ t, (w.node j).kind = .symlink t
  · obtain ⟨t, ht⟩ := h_link
    refine ⟨by simp, ?_, fun d' hd' => ?_⟩
    · rw [Bool.eq_false_iff, Ne, h_dir, ht]
      simp
    · rw [h_content, ht] at hd'
      cases hd'
  · push Not at h_link
    rw [resolve_follow hj h_link] at h_resolve
    obtain rfl := Except.ok.inj h_resolve
    refine ⟨by simp, ?_, fun d' hd' => ?_⟩
    · rw [Bool.eq_false_iff, Ne, h_dir, hk]
      simp
    · rw [h_content, hk] at hd'
      exact (Kind.reg.inj hd').symm

/-- **The copy**, to a temporary name that is free in `v`, and what follows it. -/
theorem ends_breakCopied (h_root : p.root = .workdir) (h_p : p ≠ tmp) (h_up : w.isDir tmp.parent = true)
    (ht_up : tmp.parent = p.parent) (h_resolve : w.resolve p false = .ok i)
    (h_read : w.cred.permits (w.node i).attr 2) (h_vacated : Vacated w v tmp) (h_temp : w.isDir tmp = false) :
    (machine Tree).Ends A (breakCopied sha1 p ⟨i, .rdonly, false⟩ (w.stat i) tmp) e fs v fun o _ _ w' =>
      ScopeVerdict (CopySlips (w.node i).kind fs) w p tmp o w' := by
  obtain ⟨q, hq⟩ := exists_names_of_resolve h_resolve
  have h_node : v.node i = w.node i := h_vacated.keeps.node_of_names hq
  have h_lt : i < v.next := (w.names_lt q i hq).trans_le h_vacated.keeps.next
  have h_free : v.names tmp = none := by rw [h_vacated.names, h_temp]; exact Function.update_self _ _ _
  unfold breakCopied
  refine ends_bind (ends_fileCopyInternal (f := ⟨i, .rdonly, false⟩) (by rw [h_node]; rfl) (by rw [h_node]; rfl)
    AccessMode.noConfusion h_lt h_free (by rw [h_vacated.isDir, h_up]) (fun h_fault e' fs' => ?_)
    (fun h_fault h_fails e' fs' w' data a h_created => ?_)
    fun h_fault h_copied e' w₁ d now₁ now₂ now₃ a hk h_created => ?_)
  · -- no file was made
    rw [Outcome.split_done, if_neg (by simp)]
    exact ends_getErrno (ends_pure (verdict_clean (fun h => h_fault h.1) h_vacated.notMade (h_vacated.kept h_p)))
  · -- a copy that failed on the way: its file stays, for `clear` has been called
    rw [h_node] at h_fails
    rw [Outcome.split_done, if_neg (by simp)]
    exact ends_getErrno (ends_pure (verdict_created ⟨h_fault, .inl h_fails⟩ h_vacated h_created))
  -- the copy is there: whether the call slips is a matter of the two calls that may end it
  rw [h_node] at h_copied hk h_created
  have h_slips : CopySlips (w.node i).kind fs ↔ CollectSlips (fs.drop 8) := by
    unfold CopySlips
    simp [h_fault, h_copied]
  rw [h_slips, Outcome.split_done, if_pos rfl]
  obtain ⟨r, h_close⟩ := exec_close_any w₁ ⟨i, .rdonly, false⟩ (fs.drop 7).head?.join
  refine ends_sys h_close fun _ => ?_
  rw [List.tail_drop]
  have h_tmp : w₁.names tmp = some v.next := by rw [h_created.names, Function.update_self]
  have h_tmp_dir : w₁.isDir tmp = false := by
    rw [Bool.eq_false_iff, Ne, isDir_iff, kind?_of_names h_tmp, h_created.node]
    simp
  have h_names : ∀ q, q ≠ tmp → w₁.names q = w.names q := fun q h_q => by
    rw [h_created.names, Function.update_of_ne h_q, h_vacated.names_of_ne h_q]
  have h_keeps : Keeps w w₁ := h_vacated.keeps.trans h_created.keeps
  have h_parent : w₁.isDir p.parent = true := by
    have h_ne : p.parent ≠ tmp := fun h => by rw [ht_up, h, h_temp] at h_up; cases h_up
    rw [h_keeps.isDir (h_names _ h_ne), ← ht_up, h_up]
  obtain ⟨h_there, h_dir, h_content⟩ := target_of_resolve h_resolve hk
  have h_p_dir : w₁.isDir p = false := by rw [h_keeps.isDir (h_names p h_p), h_dir]
  -- the copy has an inode of its own, so the move does replace the target
  have h_other : w₁.names p ≠ some v.next := by
    rw [h_names p h_p]
    exact w.names_ne_next p h_vacated.keeps.next
  obtain ⟨h_no, x, h_exec⟩ | ⟨h_fault', ⟨h_same, -⟩ | ⟨-, -, h_exec⟩⟩ :=
    exec_renameat2_cases h_tmp h_tmp_dir h_parent (fs.drop 8).head?.join
  · -- the destructor removes the copy
    refine ends_sys h_exec fun _ => ends_pure ⟨by simp [h_tmp], h_tmp_dir, ?_⟩
    refine verdict_clean (fun h => h_no ⟨h.1, .inr h_p_dir⟩) (.inl (Function.update_self _ _ _)) ?_
    refine kept_of_names (h_keeps.trans (keeps_clearName tmp)) ?_
    rw [clearName_names, Function.update_of_ne h_p, h_names p h_p]
  · exact absurd h_same h_other
  refine ends_sys h_exec fun _ => ?_
  have h_moved := moveName_names w₁ h_p.symm
  have h_new : (w₁.moveName tmp p).names p = some v.next := by
    rw [h_moved, Function.update_of_ne h_p, Function.update_self, h_tmp]
  have h_kind : ((w₁.moveName tmp p).node v.next).kind = .reg d := by rw [moveName_node, h_created.node]
  -- what is read back is the copy, with the permissions of the target
  have h_permits : (w₁.moveName tmp p).cred.permits ((w₁.moveName tmp p).node v.next).attr 2 := by
    rw [moveName_cred, moveName_node, h_created.node, h_keeps.cred]
    exact (permits_copied w.cred _ _ now₁ now₂ now₃ _ _ (by omega)).trans h_read
  refine ends_bind (ends_maybeGc h_new h_kind h_permits (fun h_fault'' e'' fs'' => ?_)
    fun h_fault'' b e'' fs'' w₂ h_files => ?_)
  · exact verdict_aborted ⟨h_fault', h_fault''⟩
  · rw [Outcome.split_done]
    have h_tmp_root : tmp.root = .workdir := by
      have h_eq := congrArg Path.root ht_up
      rwa [Path.parent_root, Path.parent_root, h_root] at h_eq
    refine ends_pure (verdict_clean (fun h => h.2 h_fault'') (.inl ?_) ⟨?_, fun d' hd' => ?_⟩)
    · rw [h_files.names tmp h_tmp_root, h_moved, Function.update_self]
    · rw [h_files.names p h_root, h_new]
      simp [h_there]
    · obtain rfl := h_content d' hd'
      refine content_eq_some.mpr ⟨v.next, (h_files.names p h_root).trans h_new, ?_⟩
      rw [h_files.node, h_kind]

/-- A directory that has the temporary name keeps the copy from being made. -/
theorem ends_breakCopied_dir (h_p : p ≠ tmp) (h_vacated : Vacated w v tmp) (h_temp : w.isDir tmp = true)
    (st : Stat) (fd : OpenFile) :
    (machine Tree).Ends A (breakCopied sha1 p fd st tmp) e fs v fun o _ _ w' =>
      ScopeVerdict False w p tmp o w' := by
  obtain ⟨x, h_exec⟩ : ∃ x, exec v fs.head?.join (.openat tmp copyFlags st.attr.mode) = (.error x, v) := by
    rcases hx : faultErrno fs.head?.join with _ | x
    · refine ⟨.EISDIR, (exec_pass hx rfl).trans ?_⟩
      rw [← h_vacated.isDir, isDir_iff, kind?_eq_some] at h_temp
      obtain ⟨j, hj, hk⟩ := h_temp
      have h_follow : v.follow tmp = .ok tmp := follow_self fun t ht => by
        rw [kind?_of_names hj, hk] at ht
        cases ht
      change v.openat tmp copyFlags st.attr.mode = _
      simp [openat, copyFlags, h_follow, hj, openIno, hk]
    · exact ⟨x, exec_fail hx (by simp)⟩
  unfold breakCopied fileCopyInternal
  rw [bind_assoc]
  exact ends_sys h_exec fun _ => ends_getErrno
    (ends_pure (verdict_clean not_false h_vacated.notMade (h_vacated.kept h_p)))

/-- **With the target open** and the lock held. -/
theorem ends_breakOpened (h_root : p.root = .workdir) (h_up : w.isDir p.parent = true)
    (h_resolve : w.resolve p false = .ok i) (h_read : w.cred.permits (w.node i).attr 2)
    (h_nlink : w.stNlink i ≠ 0) :
    (machine Tree).Ends (cleansUp (tmpName p "mb".toList tid)) (breakOpened sha1 tid p ⟨i, .rdonly, false⟩) e fs w
      fun o _ _ w' => Verdict (OpenedSlips tid w p i fs) w p (tmpName p "mb".toList tid) o w' := by
  have h_clean : ∀ {slips : Prop} {b : Bool × Bool}, ¬ slips →
      Verdict slips w p (tmpName p "mb".toList tid) (.done b) w := fun h =>
    verdict_clean h (.inr rfl) (kept_of_names (.refl w) rfl)
  unfold breakOpened
  rcases hx : faultErrno fs.head?.join with _ | x
  -- the `fstat` has failed, and the target is left alone
  swap
  · refine ends_sys (exec_fail hx (by simp)) fun _ => ends_pure (h_clean fun h => ?_)
    rw [h.1] at hx
    cases hx
  refine ends_sys ((exec_pass hx rfl).trans (answer_fstat _)) fun _ => ?_
  refine ends_ite (fun h_zero => absurd h_zero h_nlink) fun _ => ends_ite (fun h_one => ?_) fun h_many => ?_
  · exact ends_pure (h_clean fun h => h.2.1 h_one)
  refine ends_scopedTempFile (removes_cleansUp _) (fun h_refused e' => ?_) fun h_not e' v h_vacated => ?_
  · exact verdict_aborted ⟨hx, h_many, .inl h_refused⟩
  have h_p : p ≠ tmpName p "mb".toList tid := (tmpName_ne p _ tid).symm
  rcases h_temp : w.isDir (tmpName p "mb".toList tid) with _ | _
  · -- the name is free, so that all depends on the copy
    have h_slips : OpenedSlips tid w p i fs ↔ CopySlips (w.node i).kind fs.tail.tail := by
      constructor
      · rintro ⟨-, -, h_refused | ⟨-, -, h⟩⟩
        · exact absurd h_refused h_not
        · exact h
      · exact fun h => ⟨hx, h_many, .inr ⟨h_not, h_temp, h⟩⟩
    rw [h_slips]
    have h_tmp_up : (tmpName p "mb".toList tid).parent = p.parent := tmpName_parent p
    refine (ends_breakCopied h_root h_p (by rw [h_tmp_up, h_up]) h_tmp_up h_resolve h_read h_vacated h_temp).mono ?_
    rintro (⟨a, _ | _⟩ | _ | _) e'' fs'' w'' h
    · exact h
    · exact ⟨h.1, h.2.1, fun _ => h.2.2⟩
    · exact h
    · exact h
  · -- a directory has the name: no file is made
    have h_slips : OpenedSlips tid w p i fs ↔ False := by
      refine iff_of_false ?_ not_false
      rintro ⟨-, -, h_refused | ⟨-, h_file, -⟩⟩
      · exact h_not h_refused
      · rw [h_temp] at h_file
        cases h_file
    rw [h_slips]
    refine (ends_breakCopied_dir h_p h_vacated h_temp (w.stat i) ⟨i, .rdonly, false⟩).mono ?_
    rintro (⟨a, _ | _⟩ | _ | _) e'' fs'' w'' h
    · exact h
    · exact ⟨h.1, h.2.1, fun _ => h.2.2⟩
    · exact h
    · exact h

/-! ### Under the lock -/

/-- A path that resolves still does when more names are made. -/
theorem followN_of_more (h_keeps : Keeps w v) (h_names : ∀ q, w.names q ≠ none → v.names q = w.names q) {n : ℕ}
    (h : w.followN n p = .ok q) (h_there : w.names q ≠ none) : v.followN n p = .ok q := by
  induction n generalizing p with
  | zero => cases h
  | succ n ih =>
    have h_some : w.names p ≠ none := by
      intro h_none
      rw [followN] at h
      simp only [inode?, h_none, Option.map_none] at h
      obtain rfl := Except.ok.inj h
      exact h_there h_none
    have h_inode : v.inode? p = w.inode? p := by
      obtain ⟨j, hj⟩ := Option.ne_none_iff_exists'.mp h_some
      simp [inode?, h_names p h_some, hj, h_keeps.node_of_names hj]
    rw [followN] at h ⊢
    rw [h_inode]
    split at h
    · exact ih h
    · exact h

theorem resolve_of_more (h_keeps : Keeps w v) (h_names : ∀ q, w.names q ≠ none → v.names q = w.names q)
    (h : w.resolve p false = .ok i) : v.resolve p false = .ok i := by
  unfold resolve at h ⊢
  simp only [Bool.false_eq_true, if_false] at h ⊢
  rcases h_follow : w.follow p with x | q
  · rw [h_follow] at h
    cases h
  rw [h_follow] at h
  rcases hq : w.names q with _ | j
  · simp [hq] at h
  · have h_there : w.names q ≠ none := by simp [hq]
    have h_follow' : v.follow p = .ok q := followN_of_more h_keeps h_names h_follow h_there
    rw [h_follow']
    simp only [hq, h_names q h_there] at h ⊢
    exact h

theorem locked_names_of_some (h_lock : Lockable w p) (hq : w.names q ≠ none) :
    (locked w p).names q = w.names q :=
  locked_names_of_ne fun h => hq (h ▸ h_lock.1)

/-- A link count is one just if it was before the lock was taken. -/
theorem locked_stNlink (h_lock : Lockable w p) (hq : w.names q = some i) :
    ((locked w p).stNlink i = 1 ↔ w.stNlink i = 1) ∧ (locked w p).stNlink i ≠ 0 := by
  have h_node := (keeps_locked w p).node_of_names hq
  have hq' : (locked w p).names q = some i := by rw [locked_names_of_some h_lock (by simp [hq]), hq]
  by_cases h_dir : (w.node i).kind = .dir
  · have h_many := one_lt_stNlink_of_dir hq h_dir
    have h_many' := one_lt_stNlink_of_dir hq' (by rw [h_node, h_dir])
    omega
  · have h_eq : (locked w p).stNlink i = w.nlink i := by
      rw [stNlink_of_not_dir (by rw [h_node]; exact h_dir), locked_nlink h_lock.1 (w.names_lt q i hq)]
    rw [h_eq, stNlink_of_not_dir h_dir]
    exact ⟨Iff.rfl, (w.nlink_pos hq).ne'⟩

theorem openedSlips_locked (h_lock : Lockable w p) (hq : w.names q = some i) :
    OpenedSlips tid (locked w p) p i fs ↔ OpenedSlips tid w p i fs := by
  have h_ne : tmpName p "mb".toList tid ≠ lockName p :=
    (lockName_ne_tmpName p p mb_mem_tempTags tid).symm
  have h_up := h_lock.2
  have h_up' := locked_isDir_of_isDir h_lock.1 h_up
  have h_missing : (locked w p).missing (tmpName p "mb".toList tid) = w.missing (tmpName p "mb".toList tid) := by
    rw [missing_of_isDir (by rw [tmpName_parent, h_up']), missing_of_isDir (by rw [tmpName_parent, h_up])]
  unfold OpenedSlips Refused
  rw [ne_eq, (locked_stNlink h_lock hq).1, locked_isDir_tmpName mb_mem_tempTags, locked_names_of_ne h_ne, h_missing,
    (keeps_locked w p).node_of_names hq]

/-- A lock directory that could be removed is gone. -/
theorem exec_rmdirat_ok {fault : Option Fault} {r : Except Errno Unit} (h : exec w fault (.rmdirat q) = (r, v))
    (h_ok : r.isOk) : v = w.clearName q := by
  rcases r with x | u
  · cases h_ok
  rcases hx : faultErrno fault with _ | x
  · rw [exec_pass hx rfl] at h
    have h_rmdir : w.rmdirat q = (.ok u, v) := h
    unfold rmdirat at h_rmdir
    split at h_rmdir
    · cases h_rmdir
    · split at h_rmdir
      · cases h_rmdir
      · split at h_rmdir
        · cases h_rmdir
        · exact (Prod.mk.inj h_rmdir).2.symm
  · rw [exec_fail hx (by simp)] at h
    cases h

/-! ### The two functions -/

/-- `MaybeBreakHardlink` leaves no trace: it does not end the process, and where it returns, its temporary
name and its lock are not there and the file is what it was. -/
def BreakTraceless (tid : ℕ) (p : Path Tree) (w : FileSystem Tree) (o : Outcome Bool) (w' : FileSystem Tree) :
    Prop :=
  o ≠ .aborted ∧ ((∃ b, o = .done b) →
    NotMade w w' (tmpName p "mb".toList tid) ∧ NotMade w w' (lockName p) ∧ Kept w w' p)

/-- The target is opened, the lock is taken, and then the function slips. -/
def MaybeBreakSlips (tid : ℕ) (p : Path Tree) (e : Errno) (fs : List (Option Fault)) (w : FileSystem Tree) :
    Prop :=
  ∃ i e' fs', faultErrno fs.head?.join = none ∧ Openable w p ∧ w.resolve p false = .ok i ∧
    (machine Tree).retry (.mkdirat (lockName p) 0o700) e fs.tail w = (some (), e', fs', locked w p) ∧
    OpenedSlips tid w p i fs'

/-- Giving back the lock and closing the target changes nothing else. -/
theorem breakTraceless_iff {slips : Prop} {b : Bool} {a : Bool × Bool}
    (h : Verdict slips (locked w p) p (tmpName p "mb".toList tid) (.done a) w') :
    BreakTraceless tid p w (.done b) (w'.clearName (lockName p)) ↔ ¬ slips := by
  have h_ne : tmpName p "mb".toList tid ≠ lockName p :=
    (lockName_ne_tmpName p p mb_mem_tempTags tid).symm
  have h_p := (lockName_ne p).symm
  have h_made : NotMade w (w'.clearName (lockName p)) (tmpName p "mb".toList tid) ↔
      NotMade (locked w p) w' (tmpName p "mb".toList tid) := by
    unfold NotMade
    rw [clearName_names, Function.update_of_ne h_ne, locked_names_of_ne h_ne]
  constructor
  · rintro ⟨-, h_done⟩ h_slips
    obtain h_aborted | ⟨-, h_not⟩ := h.slipped h_slips
    · cases h_aborted
    · exact h_not (h_made.mp (h_done ⟨b, rfl⟩).1)
  · intro h_not
    obtain ⟨-, h_clean, h_kept⟩ := h.clean h_not
    refine ⟨by simp, fun _ => ⟨h_made.mpr h_clean, .inl (Function.update_self _ _ _), ?_, fun d hd => ?_⟩⟩
    · rw [clearName_names, Function.update_of_ne h_p, h_kept.there, locked_names_of_ne h_p]
    · rw [(keeps_clearName (lockName p)).content (Function.update_of_ne h_p _ _)]
      exact h_kept.content d (by rw [(keeps_locked w p).content (locked_names_of_ne h_p), hd])

/-- **`MaybeBreakHardlink`.** -/
theorem ends_maybeBreakHardlink_traceless (h_root : p.root = .workdir) :
    (machine Tree).Ends (cleansUp (tmpName p "mb".toList tid)) (maybeBreakHardlink sha1 tid p) e fs w
      fun o _ _ w' => BreakTraceless tid p w o w' ↔ ¬ MaybeBreakSlips tid p e fs w := by
  -- a lock that is never taken leaves nothing either
  have h_stuck : ∀ {v}, ¬ MaybeBreakSlips tid p e fs w →
      (BreakTraceless tid p w .stuck v ↔ ¬ MaybeBreakSlips tid p e fs w) := fun h =>
    iff_of_true ⟨by simp, fun h => by obtain ⟨b, hb⟩ := h; cases hb⟩ h
  -- where the target cannot be opened, there is nothing to be left
  have h_closed : ∀ {x}, exec w fs.head?.join (.openat p .rdonly 0) = (.error x, w) →
      ¬ MaybeBreakSlips tid p e fs w → (machine Tree).Ends (cleansUp (tmpName p "mb".toList tid))
        (maybeBreakHardlink sha1 tid p) e fs w
        fun o _ _ w' => BreakTraceless tid p w o w' ↔ ¬ MaybeBreakSlips tid p e fs w := by
    intro x h_exec h_not
    unfold maybeBreakHardlink
    refine ends_sys h_exec fun _ => ends_bind (ends_scopedFileLockWithDelete (fun e' fs' _ => h_stuck h_not)
      fun e' fs' _ _ => ends_getErrno (ends_pure fun r v h_rmdir h_clean => ?_))
    obtain rfl := exec_rmdirat_ok h_rmdir h_clean
    rw [Outcome.split_done]
    exact ends_pure (breakTraceless_iff (a := (false, false))
      (verdict_clean h_not (.inr rfl) (kept_of_names (.refl _) rfl)))
  rcases hx : faultErrno fs.head?.join with _ | x
  swap
  · refine h_closed (exec_fail hx (by simp)) ?_
    rintro ⟨i, e', fs', h_fault, -⟩
    rw [hx] at h_fault
    cases h_fault
  obtain ⟨x, h_open⟩ | ⟨i, h_resolve, h_read, h_open⟩ := openat_rdonly_cases w p
  · refine h_closed ((exec_pass hx rfl).trans h_open) ?_
    rintro ⟨i, e', fs', -, h_openable, -⟩
    obtain ⟨j, -, -, h_ok⟩ := h_openable.answer
    cases (Prod.mk.inj (h_open.symm.trans h_ok)).1
  have h_openable : Openable w p := by
    have h_eq : w.openat p .rdonly 0 = (.ok ⟨i, .rdonly, false⟩, w) := h_open
    rw [Openable, h_eq]
    rfl
  unfold maybeBreakHardlink
  refine ends_sys ((exec_pass hx rfl).trans h_open) fun _ => ends_bind (ends_scopedFileLockWithDelete
    (fun e' fs' h_retry => h_stuck ?_) fun e' fs' h_lock h_retry => ?_)
  · rintro ⟨j, e₁, fs₁, -, -, -, h_taken, -⟩
    rw [errnoAfter_ok] at h_retry
    rw [h_retry] at h_taken
    cases (Prod.mk.inj h_taken).1
  obtain ⟨q, hq⟩ := exists_names_of_resolve h_resolve
  have h_keeps := keeps_locked w p
  -- from here on it is a matter of what happens under the lock
  have h_slips : MaybeBreakSlips tid p e fs w ↔ OpenedSlips tid (locked w p) p i fs' := by
    rw [openedSlips_locked h_lock hq]
    constructor
    · rintro ⟨j, e₁, fs₁, -, -, h_resolve', h_taken, h⟩
      obtain rfl := Except.ok.inj (h_resolve.symm.trans h_resolve')
      rw [errnoAfter_ok] at h_retry
      rw [h_retry] at h_taken
      obtain rfl := (Prod.mk.inj (Prod.mk.inj (Prod.mk.inj h_taken).2).2).1
      exact h
    · exact fun h => ⟨i, e', fs', hx, h_openable, h_resolve, h_retry, h⟩
  rw [h_slips]
  have h_permits : (locked w p).cred.permits ((locked w p).node i).attr 2 := by
    rw [h_keeps.cred, h_keeps.node_of_names hq, h_read]
  refine (ends_breakOpened h_root (locked_isDir_of_isDir h_lock.1 h_lock.2)
    (resolve_of_more h_keeps (fun _ => locked_names_of_some h_lock) h_resolve) h_permits
    (locked_stNlink h_lock hq).2).mono ?_
  rintro (⟨b, held⟩ | _ | _) e'' fs'' w'' h
  · -- the lock is given back, and the target closed
    intro r v h_rmdir h_clean
    obtain rfl := exec_rmdirat_ok h_rmdir h_clean
    rw [Outcome.split_done]
    dsimp only
    refine ends_ite (fun _ => ?_) fun _ => ends_pure (breakTraceless_iff h)
    obtain ⟨r', h_close⟩ := exec_close_any (w''.clearName (lockName p)) ⟨i, .rdonly, false⟩ fs''.tail.head?.join
    exact ends_sys h_close fun _ => ends_pure (breakTraceless_iff h)
  · -- the process is gone
    refine iff_of_false (fun h_trace => h_trace.1 rfl) (not_not.mpr ?_)
    by_contra h_not
    obtain ⟨⟨b, hb⟩, -⟩ := h.clean h_not
    cases hb
  · -- a call that slips comes to an end, one way or the other
    have h_false : ¬ OpenedSlips tid (locked w p) p i fs' := by
      intro h_slip
      obtain h_aborted | ⟨⟨b, hb⟩, -⟩ := h.slipped h_slip
      · cases h_aborted
      · cases hb
    exact iff_of_true ⟨by simp, fun h => by obtain ⟨b, hb⟩ := h; cases hb⟩ h_false

/-- **Failures leave no trace** just if the two functions do not slip, provided that the calls that clean up
succeed. The two files of `HardlinkOneFile` are in different directory trees, and `MaybeBreakHardlink` is about
working files. -/
theorem leavesNoTrace_iff {w₁ w₂ : FileSystem Tree} {e₁ e₂ : Errno} {fs₁ fs₂ : List (Option Fault)}
    (h_roots : src.root ≠ dst.root) (h_root : p.root = .workdir)
    (h₁ : (machine Tree).meets (cleansUp (tmpName dst "of".toList tid)) (hardlinkOneFile tid src dst) e₁ fs₁ w₁)
    (h₂ : (machine Tree).meets (cleansUp (tmpName p "mb".toList tid)) (maybeBreakHardlink sha1 tid p) e₂ fs₂ w₂) :
    (HardlinkTraceless tid src dst w₁ ((machine Tree).run (hardlinkOneFile tid src dst) e₁ fs₁ w₁).outcome
        ((machine Tree).run (hardlinkOneFile tid src dst) e₁ fs₁ w₁).state ↔
      ¬ HardlinkSlips tid src dst fs₁ w₁) ∧
    (BreakTraceless tid p w₂ ((machine Tree).run (maybeBreakHardlink sha1 tid p) e₂ fs₂ w₂).outcome
        ((machine Tree).run (maybeBreakHardlink sha1 tid p) e₂ fs₂ w₂).state ↔
      ¬ MaybeBreakSlips tid p e₂ fs₂ w₂) :=
  ⟨ends_hardlinkOneFile_traceless h_roots h₁, ends_maybeBreakHardlink_traceless h_root h₂⟩

/-- A link that cannot be made, and a copy that is cut short. -/
theorem leavesNoTrace_iff_twins :
    (HardlinkTraceless 7 fileA (repoPath id [122]) (twins [120, 121])
        ((machine Tree).run (hardlinkOneFile 7 fileA (repoPath id [122])) .EINVAL [none, none, none,
          some (.fail .EACCES)] (twins [120, 121])).outcome
        ((machine Tree).run (hardlinkOneFile 7 fileA (repoPath id [122])) .EINVAL [none, none, none,
          some (.fail .EACCES)] (twins [120, 121])).state ↔
      ¬ HardlinkSlips 7 fileA (repoPath id [122]) [none, none, none, some (.fail .EACCES)] (twins [120, 121])) ∧
    (BreakTraceless 7 fileA (twins [120, 121])
        ((machine Tree).run (maybeBreakHardlink id 7 fileA) .EINVAL shortCopy (twins [120, 121])).outcome
        ((machine Tree).run (maybeBreakHardlink id 7 fileA) .EINVAL shortCopy (twins [120, 121])).state ↔
      ¬ MaybeBreakSlips 7 fileA .EINVAL shortCopy (twins [120, 121])) :=
  leavesNoTrace_iff (by decide) rfl (by decide +kernel) (by decide +kernel)

/-- The copy that was cut short is still there when `MaybeBreakHardlink` has returned. -/
theorem not_breakTraceless_shortCopy :
    (machine Tree).meets (cleansUp (tmpName fileA "mb".toList 7)) (maybeBreakHardlink id 7 fileA) .EINVAL shortCopy
        (twins [120, 121]) ∧
      ¬ BreakTraceless 7 fileA (twins [120, 121])
        ((machine Tree).run (maybeBreakHardlink id 7 fileA) .EINVAL shortCopy (twins [120, 121])).outcome
        ((machine Tree).run (maybeBreakHardlink id 7 fileA) .EINVAL shortCopy (twins [120, 121])).state := by
  refine ⟨by decide +kernel, ?_⟩
  rintro ⟨-, h_done⟩
  have h_there : ((machine Tree).run (maybeBreakHardlink id 7 fileA) .EINVAL shortCopy
      (twins [120, 121])).state.names (tmpName fileA "mb".toList 7) = some 5 := by decide +kernel
  have h_before : (twins [120, 121]).names (tmpName fileA "mb".toList 7) = none := by decide +kernel
  obtain ⟨h_none | h_same, -⟩ := h_done ⟨true, by decide +kernel⟩
  · rw [h_there] at h_none
    cases h_none
  · rw [h_there, h_before] at h_same
    cases h_same

end GitlstreeFS.Cowfs
