import GitlstreeFS.Cowfs.WriteSession
import GitlstreeFS.Posix.Rename

/-!
# Good states

A state is *good* if the content of every repository file hashes to the name of the file and
every regular working file is a hard link of the repository file of its content. An operation
on the mounted directory is a write session, an unlink, a link or a rename, each of them one
request or a series of requests completed before the next one. `good_of_op` says that an
operation leads from good states to good states and changes the content of no path that it
does not name.

Renaming is where sharing inodes shows. `rename_law_iff` characterises when a rename from `a`
to `b` does in a good state what it does in a directory without shared inodes.
-/

namespace GitlstreeFS.Cowfs

open Effect Posix FileSystem

variable {sha1 : Bytes → Bytes} {w w' : FileSystem Tree} {p : Path Tree} {d : Bytes}

/-- The state is good. -/
structure Good (sha1 : Bytes → Bytes) (w : FileSystem Tree) : Prop where
  /-- The content of every repository file hashes to its name. -/
  integrity : ∀ q d, q.root = .repository → w.content q = some d → q = repoPath sha1 d
  /-- Every working file is a hard link of the repository file of its content. -/
  linked : ∀ p d, p.root = .workdir → w.content p = some d →
    w.names p = w.names (repoPath sha1 d)

/-- Goodness is a condition on the names there are. -/
theorem Good.of_dom (h : ∀ q ∈ w.dom, ∀ c ∈ w.content q, if q.root = .repository
    then q = repoPath sha1 c else w.names q = w.names (repoPath sha1 c)) : Good sha1 w := by
  have h_mem : ∀ {q c}, w.content q = some c → q ∈ w.dom := fun hc => by
    obtain ⟨i, hi, -⟩ := content_eq_some.mp hc
    exact (w.mem_dom _).mpr (by simp [hi])
  refine ⟨fun q c hq hc => ?_, fun q c hq hc => ?_⟩
  · simpa [hq] using h q (h_mem hc) c hc
  · simpa [hq] using h q (h_mem hc) c hc

/-- In a good state a working file has a second name. -/
theorem Good.nlink_ne_one (hg : Good sha1 w) (h_root : p.root = .workdir)
    (hd : w.content p = some d) {i : ℕ} (hi : w.names p = some i) : w.nlink i ≠ 1 := by
  rw [Ne, w.nlink_eq_one_iff hi]
  intro h_only
  exact ne_of_root h_root rfl (h_only (repoPath sha1 d) ((hg.linked p d h_root hd).symm.trans hi)).symm

/-! ### What each operation leaves -/

/-- A name that shows a content shows it again where its inode is the same. -/
private theorem content_of_names {q q' : Path Tree} (h : Keeps w w') {k : ℕ}
    (hq : w'.names q' = some k) (hk : w.names q = some k) : w'.content q' = w.content q := by
  ext c
  rw [content_eq_some, content_eq_some]
  simp only [hq, hk, Option.some.injEq, exists_eq_left', h.node_of_names hk]

/-- Where a working file keeps its inode and the repository file is still there or was
collected, the working file is still linked. -/
private theorem Good.linked_of_collected (hg : Good sha1 w) (h : Keeps w w') {r : Path Tree}
    {q : Path Tree} {c : Bytes} (h_root : q.root = .workdir) (hq : w'.names q = w.names q)
    (hc : w'.content q = some c)
    (h_other : r ≠ repoPath sha1 c → w'.names (repoPath sha1 c) = w.names (repoPath sha1 c))
    (hr : Collected w w' r) : w'.names q = w'.names (repoPath sha1 c) := by
  have hc' : w.content q = some c := by rw [← h.content hq, hc]
  obtain ⟨k, hk, -⟩ := content_eq_some.mp hc'
  have h_linked := hg.linked q c h_root hc'
  by_cases h_eq : r = repoPath sha1 c
  · subst h_eq
    rcases hr with ⟨h_same, -⟩ | ⟨-, h_gone⟩
    · rw [hq, h_same, h_linked]
    · exact absurd (hq.trans hk) (h_gone k (h_linked.symm.trans hk) q)
  · rw [hq, h_other h_eq, h_linked]

/-- Every repository file but the one that was linked is the one it was at the start of the
session, and did not move in between. -/
theorem session_repo_names {h j : ℕ} {fl : OpenFlags} {c : Bytes}
    {s₃ : Session Tree CowFileHandle} (h_root : p.root = .workdir)
    (h_writing : Writing sha1 w p fl h j c s₃) (h_dedup : Deduped sha1 s₃.fs p c w')
    {q : Path Tree} (hq : q.root = .repository) (hqr : q ≠ repoPath sha1 c) {m : ℕ}
    (hm : w'.names q = some m) {d : Bytes} (h_kind : (w'.node m).kind = .reg d) :
    w.names q = some m ∧ s₃.fs.names q = some m := by
  have h_same : w'.names q = s₃.fs.names q := by
    by_cases hqd : q = repoDir sha1 c
    · rcases h_dedup.dir with h_same | ⟨-, h_dir⟩
      · exact hqd ▸ h_same
      · rw [← hqd, isDir_iff, kind?_of_names hm, h_kind] at h_dir
        simp at h_dir
    · exact h_dedup.other q (ne_of_root h_root hq).symm hqr hqd
  refine ⟨?_, by rw [← h_same, hm]⟩
  -- in the repository nothing but a collected file differs from the start
  by_cases h_old : ∃ d', w.content p = some d' ∧ q = repoPath sha1 d'
  · obtain ⟨d', hd', rfl⟩ := h_old
    rcases h_writing.repo d' hd' with ⟨h_kept, -⟩ | ⟨h_gone, -⟩
    · rw [← h_kept, ← h_same, hm]
    · rw [h_same, h_gone] at hm
      simp at hm
  · push Not at h_old
    rw [← h_writing.other q (ne_of_root h_root hq).symm h_old, ← h_same, hm]

/-- After a write session. -/
theorem Good.session {h j : ℕ} {fl : OpenFlags} {c : Bytes} {s₃ : Session Tree CowFileHandle}
    (hg : Good sha1 w) (h_root : p.root = .workdir) (h_writing : Writing sha1 w p fl h j c s₃)
    (h_dedup : Deduped sha1 s₃.fs p c w') :
    Good sha1 w' ∧ ∀ q, q.root = .workdir → q ≠ p → w'.names q = w.names q := by
  have h_keeps := h_writing.keeps.trans h_dedup.keeps
  obtain ⟨k, hk_p, hk_r, hk_kind⟩ := h_dedup.content h_writing.env h_writing.alone.names
    h_writing.kind
  have h_work : ∀ q, q.root = .workdir → q ≠ p → w'.names q = w.names q := fun q hq hqp => by
    rw [h_dedup.other q hqp (ne_of_root hq rfl) (ne_of_root hq rfl),
      h_writing.other q hqp fun d _ => ne_of_root hq rfl]
  refine ⟨⟨?_, ?_⟩, h_work⟩
  · intro q d hq hd
    -- the repository has the file that was written, and otherwise what it had
    by_cases hqr : q = repoPath sha1 c
    · rw [content_iff, hqr, kind?_of_names hk_r, hk_kind] at hd
      rw [hqr, Kind.reg.inj (Option.some.inj hd)]
    · obtain ⟨m, hm, hm_kind⟩ := content_eq_some.mp hd
      have hw := (session_repo_names h_root h_writing h_dedup hq hqr hm hm_kind).1
      exact hg.integrity q d hq (by rw [← content_of_names h_keeps hm hw, hd])
  · intro q d hq hd
    -- the written file is linked by the release
    by_cases hqp : q = p
    · rw [content_iff, hqp, kind?_of_names hk_p, hk_kind] at hd
      rw [hqp, ← Kind.reg.inj (Option.some.inj hd), hk_p, hk_r]
    · obtain ⟨m, hm, -⟩ := content_eq_some.mp hd
      have h_mid : s₃.fs.names q = w.names q := h_writing.other q hqp fun _ _ => ne_of_root hq rfl
      have h_same : w'.names q = s₃.fs.names q := by rw [h_work q hq hqp, h_mid]
      have hd' : s₃.fs.content q = some d := by rw [← h_dedup.keeps.content h_same, hd]
      -- before the release the file is linked still, and the release moves no other name
      have h_linked : s₃.fs.names q = s₃.fs.names (repoPath sha1 d) := by
        by_cases h_old : ∃ d', w.content p = some d'
        · obtain ⟨d', h_old⟩ := h_old
          refine hg.linked_of_collected h_writing.keeps hq h_mid hd' (fun h_ne => ?_)
            (h_writing.repo d' h_old)
          refine h_writing.other _ (ne_of_root h_root rfl).symm fun d'' hd'' h_eq => h_ne ?_
          rw [h_eq, Option.some.inj (h_old.symm.trans hd'')]
        · have h_repo := h_writing.other (repoPath sha1 d) (ne_of_root h_root rfl).symm
            fun d' hd'' => absurd ⟨d', hd''⟩ h_old
          rw [h_mid, h_repo]
          exact hg.linked q d hq (by rw [← h_writing.keeps.content h_mid, hd'])
      have h_repo : s₃.fs.names (repoPath sha1 d) = some m := by rw [← h_linked, ← h_same, hm]
      rw [hm, h_dedup.names_of_ne (ne_of_root h_root rfl).symm h_repo]

/-- After an unlink. -/
theorem Good.unlink (hg : Good sha1 w) (h_root : p.root = .workdir)
    (h : Unlinked sha1 w p d w') :
    Good sha1 w' ∧ ∀ q, q.root = .workdir → q ≠ p → w'.names q = w.names q := by
  have h_work : ∀ q, q.root = .workdir → q ≠ p → w'.names q = w.names q := fun q hq hqp =>
    h.other q hqp (ne_of_root hq rfl)
  refine ⟨⟨?_, ?_⟩, h_work⟩
  · intro q c hq hc
    have h_same : w'.names q = w.names q := by
      by_cases hqr : q = repoPath sha1 d
      · rcases h.repo with ⟨h_kept, -⟩ | ⟨h_gone, -⟩
        · rw [hqr, h_kept]
        · obtain ⟨m, hm, -⟩ := content_eq_some.mp hc
          rw [hqr, h_gone] at hm
          simp at hm
      · exact h.other q (ne_of_root h_root hq).symm hqr
    exact hg.integrity q c hq (by rw [← h.keeps.content h_same, hc])
  · intro q c hq hc
    by_cases hqp : q = p
    · obtain ⟨m, hm, -⟩ := content_eq_some.mp hc
      rw [hqp, h.target] at hm
      simp at hm
    · exact hg.linked_of_collected h.keeps hq (h_work q hq hqp) hc
        (fun h_ne => h.other _ (ne_of_root h_root rfl).symm h_ne.symm) h.repo

/-- After a new working name was made for an inode. -/
theorem Good.setName (hg : Good sha1 w) {a b : Path Tree} {i : ℕ} (ha : a.root = .workdir)
    (hb : b.root = .workdir) (hi : w.names a = some i) : Good sha1 (w.setName b i) := by
  have h_keeps : Keeps w (w.setName b i) := keeps_setName b i
  have h_same : ∀ q, q ≠ b → (w.setName b i).names q = w.names q := fun q hq =>
    Function.update_of_ne hq _ _
  refine ⟨fun q c hq hc => ?_, fun q c hq hc => ?_⟩
  · exact hg.integrity q c hq (by rw [← h_keeps.content (h_same q (ne_of_root hb hq).symm), hc])
  · rw [h_same (repoPath sha1 c) (ne_of_root hb rfl).symm]
    by_cases hqb : q = b
    · have hq' : (w.setName b i).names q = some i := by rw [hqb]; exact Function.update_self _ _ _
      rw [content_of_names h_keeps hq' hi] at hc
      rw [hq', ← hi, hg.linked a c ha hc]
    · rw [h_same q hqb, hg.linked q c hq (by rw [← h_keeps.content (h_same q hqb), hc])]

/-- After a rename. -/
theorem Good.rearranged (hg : Good sha1 w) {a b : Path Tree} {fl : RenameFlags}
    (ha : a.root = .workdir) (hb : b.root = .workdir) (h : Rearranged w a b fl w') :
    Good sha1 w' := by
  have h_repo : ∀ q : Path Tree, q.root = .repository → w'.names q = w.names q := fun q hq =>
    h.frame q (fun h => by simp [h.1, ha] at hq) (fun h => by simp [h.1, hb] at hq)
  refine ⟨fun q c hq hc => ?_, fun q c hq hc => ?_⟩
  · exact hg.integrity q c hq (by rw [← h.keeps.content (h_repo q hq), hc])
  · obtain ⟨m, hm, -⟩ := content_eq_some.mp hc
    obtain ⟨q', hq', h_move⟩ := h.src q m hm
    have h_root : q'.root = .workdir := by
      rcases h_move with rfl | ⟨t, rfl, -⟩ | ⟨t, rfl, -⟩
      · exact hq
      · exact ha
      · exact hb
    rw [content_of_names h.keeps hm hq'] at hc
    rw [hm, h_repo _ rfl, ← hg.linked q' c h_root hc, hq']

/-! ### Operations -/

/-- What a user does, one at a time. -/
inductive Op where
  | session (ws : WriteSession)
  | unlink (p : Path Tree)
  | link (a b : Path Tree)
  | rename (a b : Path Tree) (fl : RenameFlags)

namespace Op

/-- The requests an operation consists of. A write session is the only one with a handle,
which will be the handle `h`. -/
def requests : Op → ℕ → List (Request Tree)
  | session ws, h => ws.requests h
  | unlink p, _ => [.unlink p]
  | link a b, _ => [.link a b]
  | rename a b fl, _ => [.rename a b fl]

/-- The operation is on working files without reserved names, an unlinked file is regular,
and files are not too long to be read whole. -/
def Fits (w : FileSystem Tree) : Op → Prop
  | session ws => ws.Fits w
  | unlink p => p.root = .workdir ∧ ∃ d, w.content p = some d ∧ d.length ≤ maxRwCount
  | link a b => a.root = .workdir ∧ b.root = .workdir ∧ Clean b
  | rename a b _ => a.root = .workdir ∧ b.root = .workdir ∧ Clean b

/-- The paths an operation names. Renaming a directory names everything below it. -/
def Names (w : FileSystem Tree) : Op → Path Tree → Prop
  | session ws, q => q = ws.path
  | unlink p, q => q = p
  | link _ b, q => q = b
  | rename a b _, q => q = a ∨ q = b ∨ (w.isDir a ∨ w.isDir b) ∧ (Path.Below a q ∨ Path.Below b q)

end Op

theorem Env.setName (hw : Env sha1 w) {a b : Path Tree} {i : ℕ} (hb : b.root = .workdir)
    (h_clean : Clean b) (hi : w.names a = some i) :
    Env sha1 (w.setName b i) := by
  have h_keeps : Keeps w (w.setName b i) := keeps_setName b i
  have h_same : ∀ q, q ≠ b → (w.setName b i).names q = w.names q := fun q hq =>
    Function.update_of_ne hq _ _
  refine ⟨fun q hq => ?_, ?_, fun d hd => ?_, fun d k hk => ?_, fun q k d hk h_kind => ?_⟩
  · by_cases hqb : q = b
    · exact hqb ▸ h_clean
    · exact hw.tidy q (h_same q hqb ▸ hq)
  · rw [h_keeps.isDir (h_same _ (ne_of_root hb rfl).symm), hw.top]
  · have h_dir := h_same (repoDir sha1 d) (ne_of_root hb rfl).symm
    rw [h_keeps.isDir h_dir, hw.dirs d (h_dir ▸ hd)]
  · exact hw.files d k (h_same (repoPath sha1 d) (ne_of_root hb rfl).symm ▸ hk)
  · by_cases hqb : q = b
    · obtain rfl : i = k := by simpa [hqb] using hk
      exact hw.access a i d hi h_kind
    · exact hw.access q k d (h_same q hqb ▸ hk) h_kind

theorem Env.unlinked (hw : Env sha1 w) (h_root : p.root = .workdir)
    (h : Unlinked sha1 w p d w') : Env sha1 w' := by
  have h_src : ∀ q k, w'.names q = some k → w.names q = some k := by
    intro q k hk
    by_cases hqp : q = p
    · simp [hqp, h.target] at hk
    by_cases hqr : q = repoPath sha1 d
    · rcases h.repo with ⟨h_kept, -⟩ | ⟨h_gone, -⟩
      · rw [hqr, ← h_kept, ← hqr, hk]
      · simp [hqr, h_gone] at hk
    · rw [← h.other q hqp hqr, hk]
  refine ⟨fun q hq => ?_, ?_, fun d' hd => ?_, fun d' k hk => ?_, fun q k d' hk h_kind => ?_⟩
  · obtain ⟨k, hk⟩ := Option.ne_none_iff_exists'.mp hq
    exact hw.tidy q (by simp [h_src q k hk])
  · rw [h.keeps.isDir (h.other _ (ne_of_root h_root rfl).symm fun h => ?_), hw.top]
    simpa [repoPath, repoDir, Path.child] using congrArg Path.rel h
  · have h_dir := h.other (repoDir sha1 d') (ne_of_root h_root rfl).symm
      (repoPath_ne_repoDir d d').symm
    rw [h.keeps.isDir h_dir, hw.dirs d' (h_dir ▸ hd)]
  · have hk' := h_src _ k hk
    rw [h.keeps.node_of_names hk', hw.files d' k hk']
  · have hk' := h_src q k hk
    rw [h.keeps.node_of_names hk'] at h_kind ⊢
    rw [h.keeps.cred]
    exact hw.access q k d' hk' h_kind

/-- The components of a path that takes the place of another one. -/
private theorem clean_extend {a b : Path Tree} {t : List Name} (hb : Clean b)
    (ha : Clean (a.extend t)) : Clean (b.extend t) := by
  intro n hn
  rcases List.mem_append.mp hn with h | h
  · exact ha n (List.mem_append_left _ h)
  · exact hb n h

theorem Env.rearranged (hw : Env sha1 w) {a b : Path Tree} {fl : RenameFlags}
    (ha : a.root = .workdir) (hb : b.root = .workdir) (h_clean : Clean b)
    (h : Rearranged w a b fl w') : Env sha1 w' := by
  have h_repo : ∀ q : Path Tree, q.root = .repository → w'.names q = w.names q := fun q hq =>
    h.frame q (fun h => by simp [h.1, ha] at hq) (fun h => by simp [h.1, hb] at hq)
  refine ⟨fun q hq => ?_, ?_, fun d' hd => ?_, fun d' k hk => ?_, fun q k d' hk h_kind => ?_⟩
  · obtain ⟨k, hk⟩ := Option.ne_none_iff_exists'.mp hq
    obtain ⟨q', hq', h_move⟩ := h.src q k hk
    have h_clean' := hw.tidy q' (by simp [hq'])
    rcases h_move with rfl | ⟨t, rfl, rfl⟩ | ⟨t, rfl, rfl⟩
    · exact h_clean'
    · exact clean_extend h_clean h_clean'
    · exact clean_extend (hw.tidy a h.source) h_clean'
  · rw [h.keeps.isDir (h_repo _ rfl), hw.top]
  · rw [h.keeps.isDir (h_repo _ rfl), hw.dirs d' (h_repo (repoDir sha1 d') rfl ▸ hd)]
  · rw [h_repo _ rfl] at hk
    rw [h.keeps.node_of_names hk, hw.files d' k hk]
  · obtain ⟨q', hq', -⟩ := h.src q k hk
    rw [h.keeps.node_of_names hq'] at h_kind ⊢
    rw [h.keeps.cred]
    exact hw.access q' k d' hq' h_kind

/-- What an operation does to the two directories. -/
inductive OpEffect (sha1 : Bytes → Bytes) (w : FileSystem Tree) : Op → FileSystem Tree → Prop
  | session {ws : WriteSession} {w' : FileSystem Tree} {h j : ℕ} {c : Bytes}
      {s₃ : Session Tree CowFileHandle} (h_root : ws.path.root = .workdir)
      (h_clean : Clean ws.path) (h_writing : Writing sha1 w ws.path ws.flags h j c s₃)
      (h_dedup : Deduped sha1 s₃.fs ws.path c w') : OpEffect sha1 w (.session ws) w'
  | unlink {p : Path Tree} {d : Bytes} {w' : FileSystem Tree} (h_root : p.root = .workdir)
      (hd : w.content p = some d) (h : Unlinked sha1 w p d w') : OpEffect sha1 w (.unlink p) w'
  | link {a b : Path Tree} {i : ℕ} (ha : a.root = .workdir) (hb : b.root = .workdir)
      (h_clean : Clean b) (hi : w.names a = some i) (h_none : w.names b = none) :
      OpEffect sha1 w (.link a b) (w.setName b i)
  | rename {a b : Path Tree} {fl : RenameFlags} {w' : FileSystem Tree} (ha : a.root = .workdir)
      (hb : b.root = .workdir) (h_clean : Clean b) (h : Rearranged w a b fl w') :
      OpEffect sha1 w (.rename a b fl) w'
  /-- A link or a rename that fails. -/
  | failed {op : Op} : OpEffect sha1 w op w

/-- The requests of an operation have the effect of the operation. -/
theorem op_effect {s : Session Tree CowFileHandle} (hw : Env sha1 s.fs) (hg : Good sha1 s.fs)
    {op : Op} (hf : op.Fits s.fs) {rs : List (Caller × Request Tree)}
    (h_rs : rs.map Prod.snd = op.requests s.opened) :
    OpEffect sha1 s.fs op ((cowfsHandler sha1).serveAll s rs).fs := by
  cases op with
  | session ws =>
    -- every file of a good state has a second name in the repository
    have h_many : ∀ i, s.fs.names ws.path = some i → s.fs.nlink i ≠ 1 := by
      intro i hi
      rcases hf.target with ⟨d, hd, -⟩ | ⟨h_none, -⟩
      · exact hg.nlink_ne_one hf.root hd hi
      · simp [h_none] at hi
    obtain ⟨j, s₃, h_writing, h_dedup⟩ := session_effect ws hw hf h_many h_rs
    exact .session hf.root hf.clean h_writing h_dedup
  | unlink p =>
    obtain ⟨⟨caller, _⟩, _, rfl, rfl, h_nil⟩ := List.map_eq_cons_iff.mp h_rs
    obtain rfl := List.map_eq_nil_iff.mp h_nil
    obtain ⟨h_root, d, hd, h_len⟩ := hf
    obtain ⟨i, hi, hk⟩ := content_eq_some.mp hd
    have h_wp : (machine Tree).Wp ((cowfsHandler sha1).answer s caller.tid (.unlink p))
        caller.errno s.fs fun _ _ w' => Unlinked sha1 s.fs p d w' :=
      wp_reply (wp_unlink hw h_root hi hk h_len fun _ _ h => h)
    obtain ⟨a, e, w', h, h_serve⟩ := Handler.serve_of_wp h_wp
    rw [Handler.serveAll_cons, Handler.serveAll_nil, h_serve]
    exact .unlink h_root hd h
  | link a b =>
    obtain ⟨⟨caller, _⟩, _, rfl, rfl, h_nil⟩ := List.map_eq_cons_iff.mp h_rs
    obtain rfl := List.map_eq_nil_iff.mp h_nil
    -- the calls that are passed through: they fail and change nothing, or do what they say
    obtain ⟨ha, hb, h_clean⟩ := hf
    rw [Handler.serveAll_cons, Handler.serveAll_nil,
      Handler.serve_sys (k := .linkat a b) (f := fun _ => .ok) rfl]
    rcases answer_linkat_cases s.fs a b with ⟨x, h⟩ | ⟨i, hi, -, h_none, h⟩
    · rw [h]
      exact .failed
    · rw [h]
      exact .link ha hb h_clean hi h_none
  | rename a b fl =>
    obtain ⟨⟨caller, _⟩, _, rfl, rfl, h_nil⟩ := List.map_eq_cons_iff.mp h_rs
    obtain rfl := List.map_eq_nil_iff.mp h_nil
    obtain ⟨ha, hb, h_clean⟩ := hf
    rw [Handler.serveAll_cons, Handler.serveAll_nil,
      Handler.serve_sys (k := .renameat2 a b fl) (f := fun _ => .ok) rfl]
    change OpEffect sha1 s.fs _ (s.fs.renameat2 a b fl).2
    rcases renameat2_rearranged s.fs a b fl with h | h
    · rw [h]
      exact .failed
    · exact .rename ha hb h_clean h

namespace OpEffect

variable {op : Op}

theorem env (hs : Function.Injective sha1) (hw : Env sha1 w) (h : OpEffect sha1 w op w') :
    Env sha1 w' := by
  cases h with
  | session h_root h_clean h_writing h_dedup =>
    exact h_writing.env.deduped hs h_clean h_root h_writing.alone.names h_writing.kind h_dedup
  | unlink h_root _ h => exact hw.unlinked h_root h
  | link _ hb h_clean hi _ => exact hw.setName hb h_clean hi
  | rename ha hb h_clean h => exact hw.rearranged ha hb h_clean h
  | failed => exact hw

theorem good (hg : Good sha1 w) (h : OpEffect sha1 w op w') : Good sha1 w' := by
  cases h with
  | session h_root _ h_writing h_dedup => exact (hg.session h_root h_writing h_dedup).1
  | unlink h_root _ h => exact (hg.unlink h_root h).1
  | link ha hb _ hi _ => exact hg.setName ha hb hi
  | rename ha hb _ h => exact hg.rearranged ha hb h
  | failed => exact hg

/-- A working file that is not named shows what it showed. -/
theorem frame (hg : Good sha1 w) (h : OpEffect sha1 w op w') {q : Path Tree}
    (h_root : q.root = .workdir) (hq : ¬ op.Names w q) : w'.content q = w.content q := by
  cases h with
  | session h_root' _ h_writing h_dedup =>
    exact (h_writing.keeps.trans h_dedup.keeps).content
      ((hg.session h_root' h_writing h_dedup).2 q h_root hq)
  | unlink h_root' _ h => exact h.keeps.content ((hg.unlink h_root' h).2 q h_root hq)
  | link => exact (keeps_setName _ _).content (Function.update_of_ne hq _ _)
  | @rename a b _ _ _ _ _ h =>
    simp only [Op.Names, not_or, not_and] at hq
    obtain ⟨hqa, hqb, h_below⟩ := hq
    refine h.keeps.content ?_
    by_cases h_dir : w.isDir a ∨ w.isDir b
    · exact h.frame q (h_below h_dir).1 (h_below h_dir).2
    · simp only [not_or, Bool.not_eq_true] at h_dir
      exact h.frame_file h_dir.1 h_dir.2 q hqa hqb
  | failed => rfl

end OpEffect

/-- Operations completed one after the other, each of which meets the condition `C` in the state
in which it starts. -/
inductive Completes (sha1 : Bytes → Bytes) (C : FileSystem Tree → Op → Prop) :
    Session Tree CowFileHandle → List Op → Session Tree CowFileHandle → Prop
  | nil (s : Session Tree CowFileHandle) : Completes sha1 C s [] s
  | cons {s s' : Session Tree CowFileHandle} {op : Op} {ops : List Op}
      {rs : List (Caller × Request Tree)} (h : C s.fs op)
      (h_rs : rs.map Prod.snd = op.requests s.opened)
      (h_rest : Completes sha1 C ((cowfsHandler sha1).serveAll s rs) ops s') :
      Completes sha1 C s (op :: ops) s'

/-- **Sequential integrity.** An operation completed in a good state leads to a good state, and
leaves the content of every working file it does not name as it was. -/
theorem good_of_op (hs : Function.Injective sha1) {s : Session Tree CowFileHandle}
    (hw : Env sha1 s.fs) (hg : Good sha1 s.fs) {op : Op} (hf : op.Fits s.fs)
    {rs : List (Caller × Request Tree)} (h_rs : rs.map Prod.snd = op.requests s.opened) :
    Env sha1 ((cowfsHandler sha1).serveAll s rs).fs ∧
      Good sha1 ((cowfsHandler sha1).serveAll s rs).fs ∧
      ∀ q, q.root = .workdir → ¬ op.Names s.fs q →
        ((cowfsHandler sha1).serveAll s rs).fs.content q = s.fs.content q := by
  have h := op_effect hw hg hf h_rs
  exact ⟨h.env hs hw, h.good hg, fun q h_root hq => h.frame hg h_root hq⟩

/-- Two working files that are hard links of the repository file of their content `d`. -/
def twins (d : Bytes) : FileSystem Tree :=
  ((((emptyMount.alloc (emptyMount.newInode .dir 0o700)).setName (repoDir id d) 2).alloc
    (emptyMount.newInode (.reg d) 0o644)).setName (repoPath id d) 3).setName fileA 3
      |>.setName fileB 3

theorem good_twins : Good id (twins [120, 121]) :=
  .of_dom (by decide +kernel)

theorem env_twins : Env id (twins [120, 121]) :=
  .of_dom Function.injective_id rfl (by decide +kernel) (by decide +kernel)

/-- Overwriting the first byte of `fileA`. -/
def overwrite : List (Caller × Request Tree) :=
  [(⟨7, .ENOENT⟩, .open' fileA .wronly), (⟨7, .ENOENT⟩, .write 0 [122] 0), (⟨8, .ENOENT⟩, .release 0)]

/-- Overwriting one of two linked files leads to a good state and leaves the other. -/
theorem good_of_op_twins :
    Good id ((cowfsHandler id).serveAll (.start (twins [120, 121])) overwrite).fs ∧
      ((cowfsHandler id).serveAll (.start (twins [120, 121])) overwrite).fs.content fileB
        = some [120, 121] := by
  have h_fits : (Op.session ⟨fileA, .wronly, none, [([122], 0)]⟩).Fits (twins [120, 121]) :=
    ⟨rfl, rfl, clean_of_no_dot (by decide), by decide +kernel,
      Or.inl ⟨[120, 121], by decide +kernel, by decide, by decide, by decide⟩⟩
  have h_rs : overwrite.map Prod.snd
      = (Op.session ⟨fileA, .wronly, none, [([122], 0)]⟩).requests 0 := rfl
  have h := good_of_op (s := .start (twins [120, 121])) Function.injective_id env_twins good_twins
    h_fits h_rs
  exact ⟨h.2.1, (h.2.2 fileB rfl (show fileB ≠ fileA by decide)).trans (by decide +kernel)⟩

/-! ### Renaming one file onto another -/

/-- What renaming the file `a` to `b` does in a directory without shared inodes. -/
def RenameLaw (w w' : FileSystem Tree) (a b : Path Tree) : Prop :=
  w'.names a = none ∧ w'.content b = w.content a ∧
    ∀ q, q.root = .workdir → q ≠ a → q ≠ b → w'.inode? q = w.inode? q

/-- Moving the name of a file does what a rename is for. -/
private theorem renameLaw_moveName {a b : Path Tree} (hab : a ≠ b) :
    RenameLaw w (w.moveName a b) a b := by
  have h_names := moveName_names w hab
  refine ⟨by rw [h_names, Function.update_self], ?_, fun q _ hqa hqb => ?_⟩
  · have hb : (w.moveName a b).names b = w.names a := by
      rw [h_names, Function.update_of_ne hab.symm, Function.update_self]
    ext c
    rw [content_eq_some, content_eq_some, hb]
    rfl
  · unfold inode?
    rw [h_names, Function.update_of_ne hqa, Function.update_of_ne hqb]
    rfl

/-- **Renaming among deduplicated files.** Where every working file is a hard link of the repository
file of its content, as in a good state, a rename without flags that returns 0 does what it does
without shared inodes if and only if the target does not exist or has a different content (or lies
in no directory, and then the rename fails). -/
theorem rename_law_iff {s : Session Tree CowFileHandle} {a b : Path Tree}
    (h_linked : ∀ p d, p.root = .workdir → s.fs.content p = some d →
      s.fs.names p = s.fs.names (repoPath sha1 d))
    (ha : a.root = .workdir) (hb : b.root = .workdir) (hab : a ≠ b) {ca : Bytes}
    (hca : s.fs.content a = some ca)
    (hcb : s.fs.names b = none ∨ ∃ cb, s.fs.content b = some cb) (c : Caller) :
    (((cowfsHandler sha1).serve s c (.rename a b .none)).1 = .done (.ok .ok) →
        RenameLaw s.fs ((cowfsHandler sha1).serve s c (.rename a b .none)).2.fs a b) ↔
      s.fs.names b = none ∨ s.fs.content b ≠ some ca ∨ s.fs.isDir b.parent = false := by
  have h_serve := Handler.serve_sys (M := cowfsHandler sha1) (s := s) (c := c)
    (r := .rename a b .none) (k := .renameat2 a b .none) (f := fun _ => .ok) rfl
  rw [h_serve]
  obtain ⟨i, hi, hk⟩ := content_eq_some.mp hca
  have h_dir_a : s.fs.isDir a = false := by
    rw [Bool.eq_false_iff, Ne, isDir_iff, kind?_of_names hi, hk]
    simp
  have h_dir_b : s.fs.isDir b = false := by
    rcases hcb with h_none | ⟨cb, hcb⟩
    · exact isDir_eq_false_of_names_none h_none
    · rw [Bool.eq_false_iff, Ne, isDir_iff, content_iff.mp hcb]
      simp
  constructor
  · intro h_law
    by_contra h_cond
    simp only [not_or, Ne, not_not, Bool.not_eq_false] at h_cond
    obtain ⟨-, h_same, h_parent⟩ := h_cond
    -- equal contents: both are names of one repository file
    have hib : s.fs.names b = some i := by
      rw [h_linked b ca hb h_same, ← h_linked a ca ha hca, hi]
    rw [answer_renameat2_same hi hib h_parent] at h_law
    have h_gone := (h_law rfl).1
    simp [hi] at h_gone
  · intro h_cond h_ok
    -- without a directory to move it to the call fails; otherwise the two are two files
    rcases h_parent : s.fs.isDir b.parent with _ | _
    · obtain ⟨x, h_err⟩ := answer_renameat2_no_dir (a := a) (by simp [hi]) h_parent .none
      rw [h_err] at h_ok
      simp [Except.map] at h_ok
    · have hib : s.fs.names b ≠ some i := by
        intro hib
        rcases h_cond with h_none | h_ne | h_no
        · simp [h_none] at hib
        · exact h_ne (content_eq_some.mpr ⟨i, hib, hk⟩)
        · simp [h_parent] at h_no
      rw [answer_renameat2 hi h_dir_a h_dir_b hib h_parent]
      exact renameLaw_moveName hab

/-- Renaming onto an absent file. -/
theorem rename_law_iff_twins :
    RenameLaw (twins [120, 121]) ((cowfsHandler id).serve (.start (twins [120, 121])) ⟨7, .ENOENT⟩
      (.rename fileA ⟨.workdir, ["c".toList]⟩ .none)).2.fs fileA ⟨.workdir, ["c".toList]⟩ := by
  have h_content : (twins [120, 121]).content fileA = some [120, 121] := by decide +kernel
  have h_absent : (twins [120, 121]).names ⟨.workdir, ["c".toList]⟩ = none := by decide +kernel
  exact (rename_law_iff (s := .start (twins [120, 121])) good_twins.linked rfl rfl (by decide) h_content
    (Or.inl h_absent) ⟨7, .ENOENT⟩).mpr (Or.inl h_absent) (by decide +kernel)

/-- Two files of the same content, written through cowfs one after the other. -/
def writtenTwins : Session Tree CowFileHandle :=
  (cowfsHandler id).serveAll (.start emptyMount)
    [(⟨7, .ENOENT⟩, .create fileA ⟨.wronly, true, false, false, false⟩ 0o644),
      (⟨7, .ENOENT⟩, .write 0 [120, 121] 0), (⟨7, .ENOENT⟩, .release 0),
      (⟨7, .ENOENT⟩, .create fileB ⟨.wronly, true, false, false, false⟩ 0o644),
      (⟨7, .ENOENT⟩, .write 1 [120, 121] 0), (⟨7, .ENOENT⟩, .release 1)]

/-- Renaming one of them onto the other returns 0 and leaves both. -/
theorem rename_twins_stays :
    Good id writtenTwins.fs ∧ writtenTwins.fs.content fileA = some [120, 121] ∧
      ((cowfsHandler id).serve writtenTwins ⟨7, .ENOENT⟩ (.rename fileA fileB .none)).1
        = .done (.ok .ok) ∧
      ¬ RenameLaw writtenTwins.fs
        ((cowfsHandler id).serve writtenTwins ⟨7, .ENOENT⟩ (.rename fileA fileB .none)).2.fs
        fileA fileB := by
  refine ⟨.of_dom (by decide +kernel), by decide +kernel, by decide +kernel, fun h => ?_⟩
  exact absurd h.1 (by decide +kernel)

end GitlstreeFS.Cowfs
