import GitlstreeFS.Cowfs.Good

/-!
# Modifications by path

`Truncate`, `Chmod`, `Chown`, `Utimens` and `Setxattr` are requests on a path. Cowfs passes
them through, so they act on the inode the path resolves to, with whatever else has that
inode. `Modification.inode` is that inode and `Modification.apply` what becomes of it, and
`serve_modification` says that nothing else happens.

`isolated_iff` is what is left of isolation: other working files and the repository are
unaffected exactly as long as they do not share the inode, or the request asks for nothing
new.
-/

namespace GitlstreeFS.Cowfs

open Effect Posix FileSystem

/-- A change of a file that is named by its path. -/
inductive Modification where
  | truncate (size : ℕ)
  | chmod (mode : Mode)
  | chown (uid gid : Option ℕ)
  | utimens (atime mtime : Option ℕ)
  | setxattr (name : Name) (value : Bytes) (fl : XattrFlags)

namespace Modification

def request (p : Path Tree) : Modification → Request Tree
  | truncate size => .truncate p size
  | chmod mode => .chmod p mode
  | chown uid gid => .chown p uid gid
  | utimens atime mtime => .utimens p atime mtime
  | setxattr name value fl => .setxattr p name value fl

/-- The inode the request acts on, `none` if it fails: the owner and the times are those of a
symbolic link itself, everything else is that of the file behind it. -/
def inode (w : FileSystem Tree) (p : Path Tree) : Modification → Option ℕ
  | truncate _ => (w.openat p .wronly 0).1.toOption.bind fun fd =>
    match (w.node fd.ino).kind with
    | .reg _ => some fd.ino
    | _ => none
  | chmod _ => (w.resolve p false).toOption
  | chown .. => (w.resolve p true).toOption
  | utimens .. => (w.resolve p true).toOption
  | setxattr name _ fl => (w.openat p .rdonly 0).1.toOption.bind fun fd =>
    match (w.node fd.ino).attr.refusesXattr name fl with
    | some _ => none
    | none => some fd.ino

/-- What is asked for, of the inode `n`. -/
def apply (now : ℕ) (n : Inode Tree) : Modification → Inode Tree
  | truncate size =>
    match n.kind with
    | .reg d => ⟨.reg (resize d size), n.attr.written now⟩
    | _ => n
  | chmod mode => ⟨n.kind, n.attr.chmod now mode⟩
  | chown uid gid => ⟨n.kind, n.attr.chown now uid gid⟩
  | utimens atime mtime => ⟨n.kind, n.attr.utimes now atime mtime⟩
  | setxattr name value _ => ⟨n.kind, n.attr.setxattr now name value⟩

end Modification

variable {sha1 : Bytes → Bytes} {w : FileSystem Tree} {p : Path Tree}

/-- Opening a file without creating or truncating it changes nothing. -/
theorem openat_plain {fl : OpenFlags} (hc : fl.creat = false) (ht : fl.trunc = false)
    (w : FileSystem Tree) (p : Path Tree) (mode : Mode) : (w.openat p fl mode).2 = w := by
  unfold openat
  rw [if_neg (by simp [hc])]
  split
  · rfl
  · split
    · unfold openIno
      rw [ht]
      split_ifs <;> rfl
    · rw [if_neg (by simp [hc])]

/-- A descriptor has the access mode it was opened with. -/
theorem openat_access {fl : OpenFlags} {mode : Mode} {fd : OpenFile}
    (h : (w.openat p fl mode).1 = .ok fd) : fd.access = fl.access := by
  have h_create : ∀ q, (w.createFile q fl mode).1 = .ok fd → fd.access = fl.access := by
    intro q hq
    unfold createFile at hq
    split at hq
    · simp at hq
    · rw [← Except.ok.inj hq]
  have h_open : ∀ i, (w.openIno i fl).1 = .ok fd → fd.access = fl.access := by
    intro i hi
    unfold openIno at hi
    split_ifs at hi
    split at hi <;> rw [← Except.ok.inj hi]
  unfold openat at h
  split at h
  · split at h
    · simp at h
    · exact h_create p h
  · split at h
    · simp at h
    · split at h
      · exact h_open _ h
      · split at h
        · exact h_create _ h
        · simp at h

/-- The scope of `WITH_FD`. -/
theorem wp_withFd {fl : OpenFlags} (hc : fl.creat = false) (ht : fl.trunc = false) {e : Errno}
    {scope : OpenFile → Proc Tree (Except Errno Unit)}
    {Q : Except Errno Unit → Errno → FileSystem Tree → Prop}
    (h_error : ∀ x, (w.openat p fl 0).1 = .error x → ∀ e', Q (.error x) e' w)
    (h_ok : ∀ fd, (w.openat p fl 0).1 = .ok fd →
      ∀ e', (machine Tree).Wp (scope fd) e' w fun r _ w' => ∀ e'', Q r e'' w') :
    (machine Tree).Wp (Ptfs.withFd p fl scope) e w Q := by
  have h_answer : answer w (.openat p fl 0) = ((w.openat p fl 0).1, w) :=
    Prod.ext rfl (openat_plain hc ht w p 0)
  unfold Ptfs.withFd
  refine wp_sys h_answer ?_
  rcases hr : (w.openat p fl 0).1 with x | fd
  · exact wp_pure (h_error x hr _)
  · exact wp_seq ((h_ok fd hr _).mono fun r e' w' h => wp_sys (answer_close _) (wp_pure (h _)))

/-- The state after a request that changes attributes. -/
private theorem setattrat_state (w : FileSystem Tree) (p : Path Tree) (nofollow : Bool)
    (f : Attr → Attr) : (w.setattrat p nofollow f).2 =
      match (w.resolve p nofollow).toOption with
      | none => w
      | some i => w.setNode i ⟨(w.node i).kind, f (w.node i).attr⟩ := by
  unfold setattrat
  cases w.resolve p nofollow <;> rfl

/-- **A modification** changes the inode it acts on and nothing else. -/
theorem serve_modification (s : Session Tree CowFileHandle) (c : Caller) (m : Modification)
    (p : Path Tree) :
    ((cowfsHandler sha1).serve s c (m.request p)).2.fs =
      match m.inode s.fs p with
      | none => s.fs
      | some i => s.fs.setNode i (m.apply s.fs.now (s.fs.node i)) := by
  cases m with
  | chmod mode =>
    rw [Modification.request, Handler.serve_sys (k := .fchmodat p mode) (f := fun _ => .ok) rfl]
    exact setattrat_state s.fs p false _
  | chown uid gid =>
    rw [Modification.request,
      Handler.serve_sys (k := .fchownat p uid gid) (f := fun _ => .ok) rfl]
    exact setattrat_state s.fs p true _
  | utimens atime mtime =>
    rw [Modification.request,
      Handler.serve_sys (k := .utimensat p atime mtime) (f := fun _ => .ok) rfl]
    exact setattrat_state s.fs p true _
  | truncate size =>
    -- `Truncate` opens the file for writing first, and then changes what it has opened
    have h_wp : (machine Tree).Wp ((cowfsHandler sha1).answer s c.tid (.truncate p size)) c.errno s.fs
        fun _ _ w' => w' = match (Modification.truncate size).inode s.fs p with
          | none => s.fs
          | some i => s.fs.setNode i ((Modification.truncate size).apply s.fs.now (s.fs.node i)) := by
      refine wp_reply (wp_withFd rfl rfl (fun x hx e' => ?_) fun fd hfd e' => wp_sys_last rfl ?_)
      · rw [Modification.inode, hx]
        rfl
      · have h_access : fd.access ≠ .rdonly := by
          rw [openat_access hfd]
          decide
        intro e''
        change (s.fs.ftruncate fd size).2 = _
        rw [Modification.inode, hfd]
        unfold FileSystem.ftruncate
        rw [if_neg h_access]
        rcases hk : (s.fs.node fd.ino).kind with d | _ | t | o <;>
          simp [Except.toOption, Modification.apply, hk]
    obtain ⟨a, e, w', rfl, h_serve⟩ := Handler.serve_of_wp h_wp
    rw [Modification.request, h_serve]
  | setxattr name value fl =>
    -- `Setxattr` opens it for reading, and changes it all the same
    have h_wp : (machine Tree).Wp ((cowfsHandler sha1).answer s c.tid (.setxattr p name value fl))
        c.errno s.fs fun _ _ w' => w' = match (Modification.setxattr name value fl).inode s.fs p with
          | none => s.fs
          | some i => s.fs.setNode i
            ((Modification.setxattr name value fl).apply s.fs.now (s.fs.node i)) := by
      refine wp_reply (wp_withFd rfl rfl (fun x hx e' => ?_) fun fd hfd e' => wp_sys_last rfl ?_)
      · rw [Modification.inode, hx]
        rfl
      · intro e''
        change (s.fs.fsetxattr fd name value fl).2 = _
        rw [Modification.inode, hfd]
        unfold FileSystem.fsetxattr
        rcases h_refused : (s.fs.node fd.ino).attr.refusesXattr name fl with _ | x
        · simp only [Except.toOption, Option.bind_some, h_refused]
          rfl
        · simp only [Except.toOption, Option.bind_some, h_refused]
    obtain ⟨a, e, w', rfl, h_serve⟩ := Handler.serve_of_wp h_wp
    rw [Modification.request, h_serve]

/-- What a modification of `p` may not change: any other working file, `linked` by the user to
`p` apart, and the contents of the repository. -/
def Isolated (linked : Path Tree → Prop) (p : Path Tree) (w w' : FileSystem Tree) : Prop :=
  (∀ q, q.root = .workdir → q ≠ p → ¬ linked q → w'.inode? q = w.inode? q) ∧
    ∀ q, q.root = .repository → w'.content q = w.content q

/-- The modification is confined to `p`: it fails, or no other working file and, if it changes
the content, no repository file has the inode, or it asks for what the inode is already. -/
def Modification.Confined (m : Modification) (linked : Path Tree → Prop) (w : FileSystem Tree)
    (p : Path Tree) : Prop :=
  ∀ i, m.inode w p = some i →
    ((∀ q, q.root = .workdir → q ≠ p → ¬ linked q → w.names q ≠ some i) ∨
      m.apply w.now (w.node i) = w.node i) ∧
    ((∀ q, q.root = .repository → w.names q ≠ some i) ∨
      (m.apply w.now (w.node i)).kind = (w.node i).kind)

/-- A modification makes no regular file of something else. -/
private theorem apply_kind (m : Modification) (now : ℕ) (n : Inode Tree) :
    (m.apply now n).kind = n.kind ∨ ∃ d d', n.kind = .reg d ∧ (m.apply now n).kind = .reg d' := by
  cases m with
  | truncate size =>
    unfold Modification.apply
    rcases hk : n.kind with d | _ | t | o
    · exact Or.inr ⟨d, _, rfl, rfl⟩
    · exact Or.inl hk
    · exact Or.inl hk
    · exact Or.inl hk
  | _ => exact Or.inl rfl

private theorem inode?_setNode_iff {q : Path Tree} {i : ℕ} {n : Inode Tree} :
    (w.setNode i n).inode? q = w.inode? q ↔ w.names q ≠ some i ∨ n = w.node i := by
  by_cases hq : w.names q = some i
  · rw [setNode_inode? hq, inode?, hq]
    simp
  · simp [setNode_inode?_of_ne hq, hq]

private theorem content_setNode_iff {q : Path Tree} {i : ℕ} {m : Modification} {now : ℕ} :
    (w.setNode i (m.apply now (w.node i))).content q = w.content q ↔
      w.names q ≠ some i ∨ (m.apply now (w.node i)).kind = (w.node i).kind := by
  by_cases hq : w.names q = some i
  · have h_kind : (w.setNode i (m.apply now (w.node i))).kind? q
        = some (m.apply now (w.node i)).kind := by
      rw [kind?_eq_map, setNode_inode? hq]
      rfl
    constructor
    · intro h_same
      refine Or.inr ((apply_kind m now (w.node i)).elim id ?_)
      rintro ⟨d, d', hd, hd'⟩
      have h_old : w.content q = some d := content_eq_some.mpr ⟨i, hq, hd⟩
      rw [← h_same, content_iff, h_kind] at h_old
      rw [hd, Option.some.inj h_old]
    · rintro (h_ne | h_same)
      · exact absurd hq h_ne
      · exact content_congr (by rw [h_kind, h_same, kind?_of_names hq])
  · refine iff_of_true (content_congr ?_) (Or.inl hq)
    rw [kind?_eq_map, kind?_eq_map, setNode_inode?_of_ne hq]

/-- **Isolation.** A modification by path leaves the other working files and the contents of the
repository as they are if and only if it is confined to its path. -/
theorem isolated_iff (s : Session Tree CowFileHandle) (c : Caller) (m : Modification)
    (p : Path Tree) (linked : Path Tree → Prop) :
    Isolated linked p s.fs ((cowfsHandler sha1).serve s c (m.request p)).2.fs ↔
      m.Confined linked s.fs p := by
  rw [serve_modification]
  unfold Modification.Confined
  rcases hi : m.inode s.fs p with _ | i
  · simp [Isolated]
  · simp only [Option.some.injEq, forall_eq']
    unfold Isolated
    simp only [inode?_setNode_iff, content_setNode_iff]
    refine and_congr ⟨fun h => ?_, fun h q hq hqp hql => ?_⟩ ⟨fun h => ?_, fun h q hq => ?_⟩
    · by_cases h_same : m.apply s.fs.now (s.fs.node i) = s.fs.node i
      · exact Or.inr h_same
      · exact Or.inl fun q hq hqp hql => (h q hq hqp hql).resolve_right h_same
    · exact h.imp_left fun h => h q hq hqp hql
    · by_cases h_same : (m.apply s.fs.now (s.fs.node i)).kind = (s.fs.node i).kind
      · exact Or.inr h_same
      · exact Or.inl fun q hq => (h q hq).resolve_right h_same
    · exact h.imp_left fun h => h q hq

/-- In a good state a truncation that changes a file is never confined: the repository file has
the inode. -/
theorem not_confined_truncate (hg : Good sha1 w) (h_root : p.root = .workdir) {i size : ℕ}
    {d : Bytes} (hi : w.names p = some i) (hk : (w.node i).kind = .reg d)
    (h_inode : (Modification.truncate size).inode w p = some i) (h_size : size ≠ d.length)
    (linked : Path Tree → Prop) : ¬ (Modification.truncate size).Confined linked w p := by
  intro h
  rcases (h i h_inode).2 with h_none | h_same
  · refine h_none (repoPath sha1 d) rfl ?_
    rw [← hg.linked p d h_root (content_eq_some.mpr ⟨i, hi, hk⟩), hi]
  · have h_kind : ((Modification.truncate size).apply w.now (w.node i)).kind
        = .reg (resize d size) := by
      simp only [Modification.apply, hk]
    rw [h_kind, hk] at h_same
    have h_len := congrArg List.length (Kind.reg.inj h_same)
    simp only [resize, List.length_append, List.length_take, List.length_replicate] at h_len
    omega

/-- Truncating one of two files that were written through cowfs with the same content empties the
other one and the repository file as well. -/
theorem truncate_twins_not_isolated :
    Good id writtenTwins.fs ∧ writtenTwins.fs.content fileA = some [120, 121] ∧
      ¬ Isolated (fun _ => False) fileA writtenTwins.fs
        ((cowfsHandler id).serve writtenTwins ⟨7, .ENOENT⟩ (.truncate fileA 0)).2.fs := by
  refine ⟨.of_dom (by decide +kernel), by decide +kernel, fun h => ?_⟩
  exact absurd (h.1 fileB rfl (by decide) id) (by decide +kernel)

end GitlstreeFS.Cowfs
