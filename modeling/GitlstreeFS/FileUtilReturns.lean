import GitlstreeFS.FileUtilSpec

/-!
# The file utilities on any directory

What it takes for the helpers of `FileUtil` to return, whatever the state they find.

* `readFromFile` ends the process if the file cannot be opened (`Openable`);
* a lock is waited for until it can be taken, for ever if its directory is gone or something
  else has its name (`Lockable`);
* a temporary file ends the process if a directory has its name.
-/

namespace GitlstreeFS

open Effect Posix FileSystem

variable {Root α : Type} [DecidableEq Root] {w : FileSystem Root} {p : Path Root} {i : ℕ}
  {d : Bytes} {e : Errno}

/-! ### Opening for reading -/

/-- `p` can be opened for reading. -/
def Openable (w : FileSystem Root) (p : Path Root) : Prop :=
  (w.openat p .rdonly 0).1.isOk = true

instance (w : FileSystem Root) (p : Path Root) : Decidable (Openable w p) :=
  inferInstanceAs (Decidable (_ = true))

/-- Opening for reading changes nothing. It yields a descriptor on the inode the path resolves
to. -/
theorem openat_rdonly_cases (w : FileSystem Root) (p : Path Root) :
    (∃ x, answer w (.openat p .rdonly 0) = (.error x, w)) ∨
      ∃ i, w.resolve p false = .ok i ∧ w.cred.permits (w.node i).attr 2 ∧
        answer w (.openat p .rdonly 0) = (.ok ⟨i, .rdonly, false⟩, w) := by
  change (∃ x, w.openat p .rdonly 0 = (.error x, w)) ∨ ∃ i, w.resolve p false = .ok i ∧
    w.cred.permits (w.node i).attr 2 ∧ w.openat p .rdonly 0 = (.ok ⟨i, .rdonly, false⟩, w)
  unfold openat resolve
  rw [if_neg (by simp [OpenFlags.rdonly])]
  rcases w.follow p with x | q
  · exact Or.inl ⟨x, rfl⟩
  rcases hi : w.names q with _ | i
  · exact Or.inl ⟨w.missing q, by simp [OpenFlags.rdonly, hi]⟩
  · by_cases h_special : (w.node i).kind = .special false
    · exact Or.inl ⟨ Errno.ENXIO, by simp [openIno, OpenFlags.rdonly, OpenFlags.writes, hi, h_special]⟩
    by_cases h_read : w.cred.permits (w.node i).attr 2
    · refine Or.inr ⟨i, by simp [hi], h_read, ?_⟩
      simp [openIno, OpenFlags.rdonly, OpenFlags.writes, hi, h_special, h_read]
    · refine Or.inl ⟨.EACCES, ?_⟩
      simp [openIno, OpenFlags.rdonly, OpenFlags.writes, hi, h_special, h_read]

theorem Openable.answer (h : Openable w p) : ∃ i, w.resolve p false = .ok i ∧
    w.cred.permits (w.node i).attr 2 ∧
      answer w (.openat p .rdonly 0) = (.ok ⟨i, .rdonly, false⟩, w) := by
  refine (openat_rdonly_cases w p).resolve_left ?_
  rintro ⟨x, hx⟩
  have h_eq : w.openat p .rdonly 0 = (.error x, w) := hx
  rw [Openable, h_eq] at h
  exact absurd h (by simp [Except.isOk, Except.toBool])

theorem answer_of_not_openable (h : ¬ Openable w p) :
    ∃ x, answer w (.openat p .rdonly 0) = (.error x, w) := by
  refine (openat_rdonly_cases w p).resolve_right ?_
  rintro ⟨i, -, -, hi⟩
  have h_eq : w.openat p .rdonly 0 = (.ok ⟨i, .rdonly, false⟩, w) := hi
  rw [Openable, h_eq] at h
  exact h rfl

theorem openable_of_reg (hi : w.names p = some i) (hk : (w.node i).kind = .reg d)
    (hr : w.cred.permits (w.node i).attr 2) : Openable w p := by
  have h_eq : w.openat p .rdonly 0 = (.ok ⟨i, .rdonly, false⟩, w) :=
    answer_openat_rdonly hi hk hr 0
  rw [Openable, h_eq]
  rfl

/-! ### `readFromFile` -/

/-- What `readFromFile` yields for a file that is not too long. -/
def shown (w : FileSystem Root) (p : Path Root) : Option Bytes :=
  match w.resolve p false with
  | .error _ => none
  | .ok i =>
    match (w.node i).kind with
    | .reg d => some d
    | .dir => none
    | _ => some []

/-- One `read` of as many bytes as `fstat` says there are. -/
theorem read_shown (h : w.resolve p false = .ok i) :
    (∃ x, answer w (.read ⟨i, .rdonly, false⟩ (w.stat i).size) = (.error x, w)) ∨
      ∃ r, answer w (.read ⟨i, .rdonly, false⟩ (w.stat i).size) = (.ok r, w) ∧
        ((w.stat i).size = r.length → shown w p = some r) := by
  rcases hk : (w.node i).kind with data | _ | t | opens
  · refine Or.inr ⟨_, answer_read hk (by simp) _, fun h_len => ?_⟩
    have h_size : (w.stat i).size = data.length := by simp [stat, hk, Kind.size]
    rw [h_size, List.length_take] at h_len
    rw [h_size, List.take_of_length_le (by omega)]
    simp [shown, h, hk]
  · exact Or.inl ⟨.EISDIR, by change (w.read _ _, w) = _; simp [FileSystem.read, hk]⟩
  · exact Or.inr ⟨[], by change (w.read _ _, w) = _; simp [FileSystem.read, hk],
      fun _ => by simp [shown, h, hk]⟩
  · exact Or.inr ⟨[], by change (w.read _ _, w) = _; simp [FileSystem.read, hk],
      fun _ => by simp [shown, h, hk]⟩

/-- `readFromFile` returns if the file can be opened. -/
theorem wp_readFromFile_openable {Q : Option Bytes → Errno → FileSystem Root → Prop}
    (h : Openable w p) (hQ : ∀ r e', (∀ d, r = some d → shown w p = some d) → Q r e' w) :
    (machine Root).Wp (readFromFile p) e w Q := by
  obtain ⟨i, h_resolve, -, h_open⟩ := h.answer
  unfold readFromFile
  refine wp_sys h_open (wp_seq ?_)
  unfold readOpened
  refine wp_sys (answer_fstat _) ?_
  rcases read_shown h_resolve with ⟨x, hx⟩ | ⟨r, hr, h_shown⟩
  · exact wp_sys hx (wp_pure (wp_sys (answer_close _) (wp_pure (hQ _ _ (by simp)))))
  · refine wp_sys hr (wp_pure (wp_sys (answer_close _) (wp_pure (hQ _ _ fun d hd => ?_))))
    split at hd
    · simp at hd
    · next h_len =>
      obtain rfl := Option.some.inj hd
      exact h_shown (not_not.mp h_len)

/-- `readFromFile` returns just if the file can be opened. -/
theorem returns_readFromFile_iff : (machine Root).Returns (readFromFile p) e w ↔ Openable w p := by
  refine ⟨fun h => ?_, fun h => wp_readFromFile_openable h fun _ _ _ => trivial⟩
  by_contra h_open
  obtain ⟨x, hx⟩ := answer_of_not_openable h_open
  unfold readFromFile at h
  rw [Machine.Returns, sys_eq, Prog.bind_eq, Prog.call_bind, Machine.wp_call, machine_exec_none,
    hx] at h
  exact Machine.wp_abort _ _ h

/-! ### Scopes -/

/-- The lock of `p` can be taken: nothing has its name, and the directory is there. -/
def Lockable (w : FileSystem Root) (p : Path Root) : Prop :=
  w.names (lockName p) = none ∧ w.isDir p.parent = true

instance (w : FileSystem Root) (p : Path Root) : Decidable (Lockable w p) :=
  inferInstanceAs (Decidable (_ ∧ _))

/-- The lock directory of `p` can be made just if the lock can be taken. -/
theorem answer_mkdirat_lock (w : FileSystem Root) (p : Path Root) :
    (Lockable w p ∧ answer w (.mkdirat (lockName p) 0o700) = (.ok (), locked w p)) ∨
      (¬ Lockable w p ∧ ∃ x, answer w (.mkdirat (lockName p) 0o700) = (.error x, w)) := by
  rcases h_name : w.names (lockName p) with _ | i
  · rcases h_parent : w.parentError (lockName p) with _ | x
    · have h_dir := isDir_of_parentError h_parent
      exact Or.inl ⟨⟨h_name, by simpa using h_dir⟩, answer_mkdirat h_name h_dir _⟩
    · refine Or.inr ⟨fun h => ?_, x, ?_⟩
      · rw [parentError_of_isDir (by simpa using h.2)] at h_parent
        simp at h_parent
      · change w.makeNode _ _ = _
        simp [makeNode, h_name, h_parent]
  · exact Or.inr ⟨fun h => by simp [h.1] at h_name, .EEXIST,
      answer_mkdirat_exists (by simp [h_name]) _⟩

/-- Taking a lock that is free, and waiting for ever for one that is not. -/
theorem retry_lock (w : FileSystem Root) (p : Path Root) (e : Errno) :
    (Lockable w p ∧
      (machine Root).retry (.mkdirat (lockName p) 0o700) e [] w = (some (), e, [], locked w p)) ∨
    (¬ Lockable w p ∧ ∃ x,
      (machine Root).retry (.mkdirat (lockName p) 0o700) e [] w = (none, x, [], w)) := by
  rcases answer_mkdirat_lock w p with ⟨h_lock, h_mkdir⟩ | ⟨h_lock, x, h_mkdir⟩
  · refine Or.inl ⟨h_lock, ?_⟩
    simp only [Machine.retry, machine_exec_none, h_mkdir]
  · refine Or.inr ⟨h_lock, x, ?_⟩
    simp only [Machine.retry, machine_exec_none, h_mkdir]

/-- A scope under a lock returns just if the lock can be taken and the scope returns. -/
theorem returns_scopedFileLockWithDelete_iff {scope : Proc Root α} :
    (machine Root).Returns (scopedFileLockWithDelete p scope) e w ↔
      Lockable w p ∧ (machine Root).Returns scope e (locked w p) := by
  unfold scopedFileLockWithDelete Machine.Returns Machine.Wp
  rw [sysUntilOk_eq, Prog.bind_eq, Prog.spin_bind, Machine.run]
  rcases retry_lock w p e with ⟨h_lock, h_retry⟩ | ⟨h_lock, x, h_retry⟩
  · rw [h_retry]
    refine ⟨fun h => ⟨h_lock, ?_⟩, fun h => ?_⟩
    · have h_seq : (machine Root).Returns (scope.bind fun a =>
          sys (.rmdirat (lockName p)) >>= fun _ => pure a) e (locked w p) := h
      exact h_seq.of_seq
    · have h_scope : (machine Root).Returns scope e (locked w p) := h.2
      exact h_scope.seq fun a r => trivial
  · rw [h_retry]
    refine ⟨?_, fun h => absurd h.1 h_lock⟩
    rintro ⟨a, ha, -⟩
    simp at ha

/-- A scope with a temporary file returns if no directory has its name, the scope returns, and
the file exists at its end if the scope does not clear it. -/
theorem returns_scopedTempFile {opt : Name} {tid : ℕ} {scope : Path Root → Proc Root (α × Bool)}
    (h : w.isDir (tmpName p opt tid) = false) (hd : w.isDir p.parent)
    (hs : ∀ e' w', Keeps w w' → w'.names = Function.update w.names (tmpName p opt tid) none →
      (machine Root).Wp (scope (tmpName p opt tid)) e' w' fun r _ w'' => r.2 = true →
        w''.names (tmpName p opt tid) ≠ none ∧ w''.isDir (tmpName p opt tid) = false) :
    (machine Root).Returns (scopedTempFile p opt tid scope) e w := by
  have h_rest : ∀ e' w', Keeps w w' →
      w'.names = Function.update w.names (tmpName p opt tid) none →
      (machine Root).Returns (scope (tmpName p opt tid) >>= fun r => do
        if r.2 then scopedTempFileDtor (tmpName p opt tid)
        return r.1) e' w' := by
    intro e' w' h_keeps h_names
    refine wp_seq ((hs e' w' h_keeps h_names).mono ?_)
    rintro ⟨a, owned⟩ e'' w'' h_owned
    cases owned with
    | false => exact wp_pure trivial
    | true =>
      obtain ⟨h_some, h_dir⟩ := h_owned rfl
      refine wp_seq ?_
      unfold scopedTempFileDtor
      exact wp_sys (answer_unlinkat h_some h_dir) (wp_pure (wp_pure trivial))
  unfold scopedTempFile
  refine wp_seq ?_
  unfold scopedTempFileCtor
  rcases h_name : w.names (tmpName p opt tid) with _ | i
  · refine wp_sys (answer_unlinkat_missing h_name) (wp_getErrno ?_)
    rw [missing_of_isDir (by simpa using hd), errnoAfter_error, if_neg (by simp)]
    refine wp_pure (h_rest _ _ (.refl w) ?_)
    rw [← h_name, Function.update_eq_self]
  · exact wp_sys (answer_unlinkat (by simp [h_name]) h)
      (wp_pure (h_rest _ _ (keeps_clearName _) rfl))

/-! ### `fileCopyInternal` -/

/-- `sendfile` to a regular file fails or rewrites the file. -/
theorem answer_sendfile_cases (out inp : OpenFile) (hk : (w.node out.ino).kind = .reg d)
    (n : ℕ) :
    (∃ x, answer w (.sendfile out inp n) = (.error x, w)) ∨ ∃ m d', answer w (.sendfile out inp n)
      = (.ok m, w.setNode out.ino ⟨.reg d', (w.node out.ino).attr.written w.now⟩) := by
  change (∃ x, w.sendfile out inp n = (.error x, w)) ∨ ∃ m d', w.sendfile out inp n = (.ok m, _)
  unfold FileSystem.sendfile
  split
  · exact Or.inl ⟨_, rfl⟩
  · rw [hk]
    rcases (w.node inp.ino).kind with src | _ | t | opens
    · exact Or.inr ⟨_, _, rfl⟩
    · exact Or.inl ⟨_, rfl⟩
    · exact Or.inl ⟨_, rfl⟩
    · exact Or.inl ⟨_, rfl⟩

/-- Whatever is copied, a new regular file is made, and a copy that succeeds has the permissions
of the original. -/
theorem wp_fileCopyInternal_created {Q : Bool → Errno → FileSystem Root → Prop} {f : OpenFile}
    {st : Stat} {target : Path Root} (ht : w.names target = none) (hp : w.isDir target.parent)
    (hQ : ∀ b e' w' d a, Created w target ⟨.reg d, a⟩ w' → (b = true →
      ∀ (c : Cred) (bit : ℕ), bit < 3 → c.permits a bit = c.permits st.attr bit) → Q b e' w') :
    (machine Root).Wp (fileCopyInternal f st target) e w Q := by
  unfold fileCopyInternal
  refine wp_sys (answer_openat_create ht hp rfl _) (wp_seq ?_)
  have h₀ := created_alloc w target (w.newInode (.reg []) st.attr.mode)
  generalize (w.alloc _).setName target w.next = w₀ at h₀
  -- wherever it gives up, the file is closed
  have h_false : ∀ {e' w' d a}, Created w target ⟨.reg d, a⟩ w' →
      (machine Root).Wp (pure false : Proc Root Bool) e' w' fun b e'' w'' =>
        (machine Root).Wp (sys (.close ⟨w.next, copyFlags.access, copyFlags.append⟩) >>=
          fun _ => pure b) e'' w'' Q :=
    fun h => wp_pure (wp_sys (answer_close _) (wp_pure (hQ _ _ _ _ _ h (by simp))))
  unfold fileCopyOpened
  obtain ⟨r, h_alloc⟩ := answer_posixFallocate (w := w₀)
    (f := ⟨w.next, copyFlags.access, copyFlags.append⟩) (d := []) (by rw [h₀.node]; rfl)
    AccessMode.noConfusion st.size
  refine wp_sys h_alloc ?_
  obtain ⟨d₁, a₁, h₁⟩ : ∃ d₁ a₁, Created w target ⟨.reg d₁, a₁⟩ (if st.size = 0 then w₀
      else w₀.setNode w.next ⟨.reg (resize [] (max st.size 0)), (w₀.node w.next).attr⟩) := by
    split
    · exact ⟨_, _, h₀⟩
    · exact ⟨_, _, h₀.setNode _⟩
  generalize (if st.size = 0 then w₀ else _) = w₁ at h₁
  rcases answer_sendfile_cases (w := w₁) ⟨w.next, copyFlags.access, copyFlags.append⟩ f
    (by rw [h₁.node]) st.size with ⟨x, hx⟩ | ⟨m, d₂, h_send⟩
  · exact wp_sys hx (h_false h₁)
  refine wp_sys h_send ?_
  have h₂ := h₁.setNode ⟨.reg d₂, (w₁.node w.next).attr.written w₁.now⟩
  dsimp only
  generalize w₁.setNode w.next _ = w₂ at h₂
  -- behind a transfer that is not short, the attributes are set one after the other
  refine wp_ite (fun _ => h_false h₂) fun _ => ?_
  refine wp_sys (answer_fchmod _ _) ?_
  have h₃ := h₂.setAttr (·.chmod w₂.now st.attr.mode)
  generalize w₂.setAttr w.next _ = w₃ at h₃
  refine wp_sys (answer_futimens _ _ _) ?_
  have h₄ := h₃.setAttr (·.utimes w₃.now (some st.attr.mtime) (some st.attr.ctime))
  generalize w₃.setAttr w.next _ = w₄ at h₄
  refine wp_sys (answer_fchown _ _ _) ?_
  have h₅ := h₄.setAttr (·.chown w₄.now (some st.attr.uid) (some st.attr.gid))
  refine wp_pure (wp_sys (answer_close _) (wp_pure ?_))
  exact hQ _ _ _ _ _ h₅ fun _ c bit hb => permits_copied c _ _ _ _ _ _ _ hb

end GitlstreeFS
