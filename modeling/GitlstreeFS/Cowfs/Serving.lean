import GitlstreeFS.FileUtilReturns
import GitlstreeFS.Cowfs.Handler
import GitlstreeFS.Ptfs.Spec

/-!
# Requests that are answered

Cowfs ends the process where it cannot open a file it expects to be there, and waits for ever
for a lock whose directory is gone. Both happen to a `Release` whose path was renamed since the
`Open`, and the former to an `Unlink` of a file that cannot be read.

`Serviceable` is what a request has to find to be answered: the files that are opened can be
opened, the locks that are taken can be taken, and no directory bears a temporary name.
`answered_along` says that a run is answered throughout if this holds of each of its
requests.
-/

namespace GitlstreeFS.Cowfs

open Effect Posix FileSystem

variable {sha1 : Bytes → Bytes} {tid : ℕ} {w : FileSystem Tree} {p : Path Tree} {i : ℕ}
  {d : Bytes} {e : Errno}

/-! ### Linking -/

theorem returns_hardlinkFresh {src dst : Path Tree} (hp : w.isDir dst.parent)
    (ht : w.isDir (tmpName dst "of".toList tid) = false) :
    (machine Tree).Returns (hardlinkFresh tid src dst) e w := by
  unfold hardlinkFresh
  refine returns_scopedTempFile ht hp fun e' w' h_keeps h_names => ?_
  generalize tmpName dst "of".toList tid = tmp at h_names
  have h_none : w'.names tmp = none := by rw [h_names, Function.update_self]
  rcases answer_linkat_cases w' src tmp with ⟨x, h⟩ | ⟨i, hi, h_dir, -, h⟩
  · exact wp_sys h (wp_pure (by simp))
  · -- now `tmp` is a name of the file, which a failing rename leaves there
    have h_file : (w'.setName tmp i).names tmp ≠ none ∧ (w'.setName tmp i).isDir tmp = false := by
      refine ⟨by simp, ?_⟩
      rw [← h_dir, Bool.eq_iff_iff, isDir_iff, isDir_iff, kind?_of_names hi,
        kind?_of_names (i := i) (by simp)]
      rfl
    refine wp_sys h ?_
    have h_frame := answer_error (w'.setName tmp i) (.renameat2 tmp dst .none)
    rcases hr : answer (w'.setName tmp i) (.renameat2 tmp dst .none) with ⟨x | v, w''⟩
    · rw [hr] at h_frame
      obtain rfl : w'' = w'.setName tmp i := h_frame x rfl
      exact wp_sys hr (wp_pure fun _ => h_file)
    · exact wp_sys hr (wp_pure (by simp))

theorem returns_hardlinkOneFile {src dst : Path Tree} (hp : w.isDir dst.parent)
    (ht : w.isDir (tmpName dst "of".toList tid) = false) :
    (machine Tree).Returns (hardlinkOneFile tid src dst) e w := by
  unfold hardlinkOneFile
  refine wp_sys rfl ?_
  rcases w.fstatat src false with x | st₁
  · exact returns_hardlinkFresh hp ht
  · refine wp_sys rfl ?_
    rcases w.fstatat dst false with x | st₂
    · exact returns_hardlinkFresh hp ht
    · exact wp_ite (fun _ => wp_pure trivial) fun _ => returns_hardlinkFresh hp ht

/-- What the repository has to look like for a content: where it keeps a directory there is no
file, and no directory has the temporary name. -/
structure RepoPlace (sha1 : Bytes → Bytes) (tid : ℕ) (w : FileSystem Tree) (d : Bytes) : Prop where
  dir : w.names (repoDir sha1 d) = none ∨ w.isDir (repoDir sha1 d) = true
  temp : w.isDir (tmpName (repoPath sha1 d) "of".toList tid) = false

/-- The lock of a file takes no other name. -/
theorem locked_isDir_of_isDir {q : Path Tree} (h : w.names (lockName p) = none) (hq : w.isDir q) :
    (locked w p).isDir q := by
  rw [(keeps_locked w p).isDir (locked_names_of_ne (parent_ne_of_free hq h)), hq]

theorem locked_isDir_tmpName {q : Path Tree} {opt : Name} (ho : opt ∈ tempTags) :
    (locked w p).isDir (tmpName q opt tid) = w.isDir (tmpName q opt tid) :=
  (keeps_locked w p).isDir (locked_names_of_ne (lockName_ne_tmpName p q ho tid).symm)

theorem RepoPlace.locked (h : RepoPlace sha1 tid w d) (p : Path Tree) :
    RepoPlace sha1 tid (locked w p) d where
  dir := by
    rw [locked_names_of_clean (repoDir_clean d), locked_isDir (repoDir_clean d)]
    exact h.dir
  temp := by rw [locked_isDir_tmpName of_mem_tempTags, h.temp]

instance (d : Bytes) : Decidable (RepoPlace sha1 tid w d) :=
  decidable_of_iff ((w.names (repoDir sha1 d) = none ∨ w.isDir (repoDir sha1 d) = true) ∧
    w.isDir (tmpName (repoPath sha1 d) "of".toList tid) = false)
    ⟨fun h => ⟨h.1, h.2⟩, fun h => ⟨h.dir, h.temp⟩⟩

theorem returns_linkToRepo (h : RepoPlace sha1 tid w d) :
    (machine Tree).Returns (linkToRepo sha1 tid p d) e w := by
  have h_tmp : tmpName (repoPath sha1 d) "of".toList tid ≠ repoDir sha1 d :=
    fun h => tmpName_not_clean _ of_mem_tempTags tid (h ▸ repoDir_clean d)
  unfold linkToRepo
  rcases h_name : w.names (repoDir sha1 d) with _ | j
  · rcases h_top : w.parentError (repoDir sha1 d) with _ | x
    · refine wp_sys (answer_mkdirat h_name (isDir_of_parentError h_top) 0o700) ?_
      refine returns_hardlinkOneFile ?_ ?_
      · change FileSystem.isDir _ (repoDir sha1 d) = true
        rw [isDir_iff, kind?_eq_some]
        exact ⟨w.next, by simp, by simp [newInode]⟩
      · rw [((keeps_alloc _).trans (keeps_setName _ _)).isDir (Function.update_of_ne h_tmp _ _),
          h.temp]
    · -- the repository itself is gone
      have h_ne : x ≠ .EEXIST := by
        unfold parentError at h_top
        split at h_top <;> simp at h_top <;> simp [← h_top]
      have h_mkdir : answer w (.mkdirat (repoDir sha1 d) 0o700) = (.error x, w) := by
        change w.makeNode _ _ = _
        simp [makeNode, h_name, h_top]
      refine wp_sys h_mkdir (wp_getErrno ?_)
      rw [errnoAfter_error, if_pos h_ne]
      exact wp_pure trivial
  · refine wp_sys (answer_mkdirat_exists (by simp [h_name]) 0o700) (wp_getErrno ?_)
    rw [errnoAfter_error, if_neg (by simp)]
    exact returns_hardlinkOneFile (h.dir.resolve_left (by simp [h_name])) h.temp

theorem returns_linkContent (hp : w.isDir p.parent)
    (ht : w.isDir (tmpName p "of".toList tid) = false) (h : RepoPlace sha1 tid w d) :
    (machine Tree).Returns (linkContent sha1 tid p d) e w := by
  unfold linkContent
  refine wp_sys rfl ?_
  rcases w.fstatat (repoPath sha1 d) true with x | st
  · refine wp_getErrno ?_
    exact wp_ite (fun _ => returns_linkToRepo h) fun _ => returns_hardlinkOneFile hp ht
  · exact returns_hardlinkOneFile hp ht

/-- What the release of a written file has to find. -/
structure Linkable (sha1 : Bytes → Bytes) (tid : ℕ) (w : FileSystem Tree) (p : Path Tree) :
    Prop where
  lock : Lockable w p
  read : Openable (locked w p) p
  temp : w.isDir (tmpName p "of".toList tid) = false
  repo : ∀ d ∈ shown (locked w p) p, RepoPlace sha1 tid w d

instance (w : FileSystem Tree) (p : Path Tree) : Decidable (Linkable sha1 tid w p) :=
  decidable_of_iff (Lockable w p ∧ Openable (locked w p) p ∧
    w.isDir (tmpName p "of".toList tid) = false ∧ ∀ d ∈ shown (locked w p) p, RepoPlace sha1 tid w d)
    ⟨fun h => ⟨h.1, h.2.1, h.2.2.1, h.2.2.2⟩, fun h => ⟨h.lock, h.read, h.temp, h.repo⟩⟩

/-- **`FindOutRepoAndMaybeHardlink`** returns. -/
theorem Linkable.returns (h : Linkable sha1 tid w p) :
    (machine Tree).Returns (findOutRepoAndMaybeHardlink sha1 tid p) e w := by
  refine returns_scopedFileLockWithDelete_iff.mpr ⟨h.lock, ?_⟩
  unfold findOutRepoLocked
  refine wp_seq (wp_readFromFile_openable h.read fun r e' hr => ?_)
  cases r with
  | none => exact wp_pure trivial
  | some d =>
    refine returns_linkContent (locked_isDir_of_isDir h.lock.1 h.lock.2) ?_
      ((h.repo d (hr d rfl)).locked p)
    rw [locked_isDir_tmpName of_mem_tempTags, h.temp]

/-! ### Collecting -/

theorem total_garbageCollectOneRepoFile (r : Path Tree) : (garbageCollectOneRepoFile r).Total := by
  rintro (x | st)
  · trivial
  · change Prog.Total (if st.nlink = 1 then _ else _)
    split
    · rintro (x | u)
      · exact fun _ => trivial
      · trivial
    · trivial

theorem wp_getRepoItemPath (h : Openable w p) {Q : Option (Path Tree) → Errno → FileSystem Tree → Prop}
    (hQ : ∀ r e', Q r e' w) : (machine Tree).Wp (getRepoItemPath sha1 p) e w Q := by
  unfold getRepoItemPath
  refine wp_seq (wp_readFromFile_openable h fun r e' _ => ?_)
  cases r with
  | none => exact wp_pure (hQ _ _)
  | some d => exact wp_pure (hQ _ _)

theorem returns_maybeGcAfterHardlinkBreakForTarget (h : Openable w p) :
    (machine Tree).Returns (maybeGcAfterHardlinkBreakForTarget sha1 p) e w := by
  refine wp_seq (wp_getRepoItemPath h fun r e' => ?_)
  cases r with
  | none => exact wp_pure trivial
  | some r => exact Machine.returns_of_total (total_garbageCollectOneRepoFile r) _ _

/-- **`CowFileSystemHandler::Unlink`** returns. -/
theorem returns_unlink (h : Openable w p) : (machine Tree).Returns (unlink sha1 p) e w := by
  refine wp_seq (wp_getRepoItemPath h fun r e' => ?_)
  refine Machine.returns_of_total ?_ _ _
  intro u
  cases r with
  | none => trivial
  | some r => exact (total_garbageCollectOneRepoFile r).bind fun _ => trivial

/-! ### Breaking a link -/

/-- What an open for writing has to find. -/
structure Breakable (tid : ℕ) (w : FileSystem Tree) (p : Path Tree) : Prop where
  lock : Lockable w p
  temp : w.isDir (tmpName p "mb".toList tid) = false

instance (w : FileSystem Tree) (p : Path Tree) : Decidable (Breakable tid w p) :=
  decidable_of_iff (Lockable w p ∧ w.isDir (tmpName p "mb".toList tid) = false)
    ⟨fun h => ⟨h.1, h.2⟩, fun h => ⟨h.lock, h.temp⟩⟩

/-- The copy of a file that could be opened can be opened. -/
theorem wp_breakCopied_returns {tmp : Path Tree} {st : Stat} {f : OpenFile}
    (ht : w.names tmp = none) (hp : w.isDir tmp.parent) (h_ne : tmp ≠ p)
    (h_read : w.cred.permits st.attr 2) :
    (machine Tree).Wp (breakCopied sha1 p f st tmp) e w fun r _ w' =>
      r.2 = true → w'.names tmp ≠ none ∧ w'.isDir tmp = false := by
  unfold breakCopied
  refine wp_seq (wp_fileCopyInternal_created ht hp fun b e' w₁ d a h_created h_perm => ?_)
  cases b with
  | false => exact wp_getErrno (wp_pure (by simp))
  | true =>
    have h_tmp : w₁.names tmp = some w.next := by rw [h_created.names, Function.update_self]
    have h_dir : w₁.isDir tmp = false := by
      rw [Bool.eq_false_iff, Ne, isDir_iff, kind?_of_names h_tmp, h_created.node]
      simp
    have h_target : w₁.names p ≠ some w.next := by
      rw [h_created.names, Function.update_of_ne h_ne.symm]
      exact w.names_ne_next p (le_refl _)
    refine wp_sys (answer_close _) ?_
    rcases answer_renameat2_cases h_tmp h_dir h_target with ⟨x, hx⟩ | h_moved
    · exact wp_sys hx (wp_pure fun _ => ⟨by simp [h_tmp], h_dir⟩)
    · refine wp_sys h_moved (wp_seq ?_)
      have h_names := moveName_names_of_update h_created.names ht h_ne
      have h_open : Openable (w₁.moveName tmp p) p := by
        refine openable_of_reg (i := w.next) (d := d) ?_ ?_ ?_
        · rw [h_names, Function.update_self]
        · rw [moveName_node, h_created.node]
        · rw [moveName_cred, moveName_node, h_created.node, h_created.keeps.cred,
            h_perm rfl _ 2 (by omega), h_read]
      exact (returns_maybeGcAfterHardlinkBreakForTarget h_open).mono fun _ _ _ _ =>
        wp_pure (by simp)

/-- **`MaybeBreakHardlink`** returns. -/
theorem Breakable.returns (h : Breakable tid w p) :
    (machine Tree).Returns (maybeBreakHardlink sha1 tid p) e w := by
  unfold maybeBreakHardlink
  rcases openat_rdonly_cases w p with ⟨x, hx⟩ | ⟨i, h_resolve, h_read, h_open⟩
  · refine wp_sys hx (Machine.Returns.seq ?_ fun _ => trivial)
    exact returns_scopedFileLockWithDelete_iff.mpr ⟨h.lock, wp_getErrno (wp_pure trivial)⟩
  · refine wp_sys h_open (Machine.Returns.seq ?_ ?_)
    swap
    · rintro ⟨b, _ | _⟩
      · trivial
      · exact fun _ => trivial
    refine returns_scopedFileLockWithDelete_iff.mpr ⟨h.lock, ?_⟩
    unfold breakLocked breakOpened
    refine wp_sys (answer_fstat _) ?_
    refine wp_ite (fun _ => wp_pure trivial) fun _ => wp_ite (fun _ => wp_pure trivial) fun _ => ?_
    have h_parent := locked_isDir_of_isDir h.lock.1 h.lock.2
    refine returns_scopedTempFile ?_ h_parent fun e' w' h_keeps h_names => ?_
    · rw [locked_isDir_tmpName mb_mem_tempTags, h.temp]
    -- the temporary name is free now, and the inode of the target is what it was
    have h_ne : p.parent ≠ tmpName p "mb".toList tid := by
      intro h_eq
      rw [h_eq, locked_isDir_tmpName mb_mem_tempTags, h.temp] at h_parent
      simp at h_parent
    have h_parent' : w'.isDir (tmpName p "mb".toList tid).parent := by
      rw [tmpName_parent, h_keeps.isDir (by rw [h_names, Function.update_of_ne h_ne]), h_parent]
    obtain ⟨q, hq⟩ := exists_names_of_resolve h_resolve
    refine (wp_breakCopied_returns (by rw [h_names, Function.update_self]) h_parent'
      (append_ne_self (by simp) p) ?_)
    rw [h_keeps.cred, (keeps_locked w p).cred]
    change w.cred.permits ((locked w p).node i).attr 2 = true
    rw [(keeps_locked w p).node_of_names hq, h_read]

/-! ### Requests -/

/-- What a request has to find to be answered. -/
def Serviceable (sha1 : Bytes → Bytes) (s : Session Tree CowFileHandle) (c : Caller) :
    Request Tree → Prop
  | .open' p fl => fl.writes → Breakable c.tid s.fs p
  | .create p fl _ => fl.writes → Breakable c.tid s.fs p
  | .release h => ∀ x ∈ s.handles h, x.2.writes → Linkable sha1 c.tid s.fs x.1.relativePath
  | .unlink p => Openable s.fs p
  | _ => True

instance (s : Session Tree CowFileHandle) (c : Caller) (r : Request Tree) :
    Decidable (Serviceable sha1 s c r) := by
  cases r <;> unfold Serviceable <;> infer_instance

variable {s : Session Tree CowFileHandle} {c : Caller} {r : Request Tree} {fl : OpenFlags}
  {mode : Mode}

theorem total_sys (k : SysCall Tree) : (sys k).Total := fun _ => trivial

theorem total_create : (Ptfs.create p fl mode).Total := by
  rintro (x | f) <;> trivial

theorem total_withFd {scope : OpenFile → Proc Tree (Except Errno Unit)}
    (h : ∀ fd, (scope fd).Total) : (Ptfs.withFd p fl scope).Total := by
  rintro (x | fd)
  · trivial
  · exact (h fd).bind fun _ _ => trivial

theorem returns_openBroken {openFd : Proc Tree (Except Errno OpenFile)} (ho : openFd.Total)
    (h : fl.writes → Breakable tid w p) :
    (machine Tree).Returns (openBroken sha1 tid p fl openFd) e w := by
  have h_open : (openFd >>= fun r => pure (r.map (CowFileHandle.mk p)) :
      Proc Tree (Except Errno CowFileHandle)).Total := ho.bind fun _ => trivial
  unfold openBroken
  refine wp_ite (fun hf => ?_) fun _ => Machine.returns_of_total h_open _ _
  refine (h hf).returns.seq ?_
  rintro (_ | _)
  · trivial
  · exact h_open

/-- **One request.** -/
theorem Serviceable.returns (h : Serviceable sha1 s c r) :
    (machine Tree).Returns ((cowfsHandler sha1).answer s c.tid r) c.errno s.fs := by
  have h_reply : ∀ {α : Type} {f : α → Reply CowFileHandle} {q : Proc Tree (Except Errno α)},
      (machine Tree).Returns q c.errno s.fs →
      (machine Tree).Returns (Handler.reply f q) c.errno s.fs := fun hq => hq.seq fun _ => trivial
  have h_sys : ∀ k : SysCall Tree, (machine Tree).Returns (sys k) c.errno s.fs := fun k =>
    Machine.returns_of_total (total_sys k) _ _
  have h_closed : (machine Tree).Returns
      (pure (.error .EBADF) : Proc Tree (Except Errno (Reply CowFileHandle))) c.errno s.fs :=
    wp_pure trivial
  cases r with
  | open' p fl =>
    refine h_reply (returns_openBroken ?_ h)
    rw [Ptfs.open'_eq_create]
    exact total_create
  | create p fl mode => exact h_reply (returns_openBroken total_create h)
  | write n buf off =>
    rcases ha : s.handles n with _ | ⟨fh, fl⟩
    · unfold Handler.answer
      simp only [ha]
      exact h_closed
    · rw [Handler.answer_write_live ha]
      exact h_reply (h_sys _)
  | release n =>
    rcases ha : s.handles n with _ | ⟨fh, fl⟩
    · unfold Handler.answer
      simp only [ha]
      exact h_closed
    · rw [Handler.answer_release_live ha]
      refine h_reply (wp_sys (answer_close _) ?_)
      -- a file that was open for writing is looked up in the repository again
      refine wp_ite (fun hf => ?_) fun _ => wp_pure trivial
      exact (h _ ha hf).returns.seq fun _ => trivial
  | unlink p => exact h_reply (returns_unlink h)
  | truncate p size => exact h_reply (Machine.returns_of_total (total_withFd fun _ => total_sys _) _ _)
  | setxattr p name value fl =>
    exact h_reply (Machine.returns_of_total (total_withFd fun _ => total_sys _) _ _)
  | rename a b fl => exact h_reply (h_sys _)
  | link a b => exact h_reply (h_sys _)
  | symlink target p => exact h_reply (h_sys _)
  | mknod p k mode => exact h_reply (h_sys _)
  | mkdir p mode => exact h_reply (h_sys _)
  | rmdir p => exact h_reply (h_sys _)
  | chmod p mode => exact h_reply (h_sys _)
  | chown p uid gid => exact h_reply (h_sys _)
  | utimens p atime mtime => exact h_reply (h_sys _)

/-- The request is answered. -/
def Answered (M : Handler Tree CowFileHandle) (s : Session Tree CowFileHandle) (c : Caller)
    (r : Request Tree) : Prop :=
  ∃ reply, (M.serve s c r).1 = .done reply

theorem answered_iff : Answered (cowfsHandler sha1) s c r ↔
    (machine Tree).Returns ((cowfsHandler sha1).answer s c.tid r) c.errno s.fs := by
  refine ⟨?_, fun h => ?_⟩
  · rintro ⟨reply, h_serve⟩
    unfold Handler.serve at h_serve
    rcases h_run : (machine Tree).run ((cowfsHandler sha1).answer s c.tid r) c.errno [] s.fs with
      ⟨a | _ | _, e', fs', w'⟩
    · exact ⟨a, by rw [h_run], trivial⟩
    · simp [h_run] at h_serve
    · simp [h_run] at h_serve
  · obtain ⟨a, e, w', -, h_serve⟩ := Handler.serve_of_wp h
    exact ⟨a, by rw [h_serve]⟩

/-- An `Unlink` is answered just if the file can be read. -/
theorem answered_unlink_iff :
    Answered (cowfsHandler sha1) s c (.unlink p) ↔ Openable s.fs p := by
  rw [answered_iff]
  refine ⟨fun h => ?_, fun h => Serviceable.returns h⟩
  have h_unlink : (machine Tree).Returns (unlink sha1 p) c.errno s.fs := h.of_seq
  have h_path : (machine Tree).Returns (getRepoItemPath sha1 p) c.errno s.fs := h_unlink.of_seq
  exact returns_readFromFile_iff.mp h_path.of_seq

/-- Where the names that cowfs makes up are free, the `Release` of a written file is answered
just if the lock can be taken and the file can be read then. -/
theorem answered_release_iff {n : ℕ} {fh : CowFileHandle} (ha : s.handles n = some (fh, fl))
    (hf : fl.writes) (ht : s.fs.isDir (tmpName fh.relativePath "of".toList c.tid) = false)
    (hr : ∀ d, RepoPlace sha1 c.tid s.fs d) :
    Answered (cowfsHandler sha1) s c (.release n) ↔
      Lockable s.fs fh.relativePath ∧ Openable (locked s.fs fh.relativePath) fh.relativePath := by
  rw [answered_iff]
  refine ⟨fun h => ?_, fun h => Serviceable.returns fun x hx _ => ?_⟩
  · rw [Handler.answer_release_live ha] at h
    have h_release : (machine Tree).Returns (release sha1 c.tid fl fh) c.errno s.fs := h.of_seq
    change (machine Tree).Returns (if fl.writes then _ else _) c.errno s.fs at h_release
    rw [if_pos hf] at h_release
    have h_find : (machine Tree).Returns (findOutRepoAndMaybeHardlink sha1 c.tid fh.relativePath)
        c.errno s.fs := h_release.of_seq
    obtain ⟨h_lock, h_scope⟩ := returns_scopedFileLockWithDelete_iff.mp h_find
    exact ⟨h_lock, returns_readFromFile_iff.mp h_scope.of_seq⟩
  · obtain rfl : x = (fh, fl) := Option.some.inj (hx.symm.trans ha)
    exact ⟨h.1, h.2, ht, fun d _ => hr d⟩

/-- A file that is open for writing is renamed, replaced and renamed back. -/
def renamedBack : List (Caller × Request Tree) :=
  [.create fileA ⟨.wronly, true, false, false, false⟩ 0o644, .rename fileA fileB .none,
    .create fileA ⟨.wronly, true, false, false, false⟩ 0o644, .write 0 [120] 0, .release 1,
    .rename fileB fileA .none, .release 0, .unlink fileA].map (Prod.mk ⟨1, .ENOENT⟩)

/-- The file of a live handle is renamed. -/
def renamedFile : List (Caller × Request Tree) :=
  [.create fileA ⟨.wronly, true, false, false, false⟩ 0o644,
    .rename fileA fileB .none].map (Prod.mk ⟨1, .ENOENT⟩)

/-- The directory of a live handle's file is renamed. -/
def renamedDirectory : List (Caller × Request Tree) :=
  [.mkdir fileA 0o755,
    .create (fileA.child "f".toList) ⟨.wronly, true, false, false, false⟩ 0o644,
    .rename fileA fileB .none].map (Prod.mk ⟨1, .ENOENT⟩)

end GitlstreeFS.Cowfs
