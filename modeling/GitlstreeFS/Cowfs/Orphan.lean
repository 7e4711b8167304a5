import GitlstreeFS.Cowfs.Good

/-!
# Orphans in the repository

A repository file that no working file uses has link count one. Cowfs collects such a file
when it breaks a link and when it unlinks a file, but `Rename` is passed through: the file
that is overwritten loses a name, and nobody looks at its repository file.

`noOrphan_of_completes` is the invariant for operations that satisfy
`Op.KeepsReference`: no rename overwrites the last working file of a content.
`orphan_of_rename` shows that the condition is needed.
-/

namespace GitlstreeFS.Cowfs

open Effect Posix FileSystem

variable {sha1 : Bytes → Bytes} {w w' v : FileSystem Tree} {p : Path Tree}

/-- Every repository file has another name. -/
def NoOrphan (w : FileSystem Tree) : Prop :=
  ∀ q i d, q.root = .repository → w.names q = some i → (w.node i).kind = .reg d →
    2 ≤ w.nlink i

/-- A rename without flags that overwrites a regular file leaves it a name besides the one in
the repository. -/
def Op.KeepsReference (w : FileSystem Tree) : Op → Prop
  | .rename a b .none => ∀ k d, w.names b = some k → (w.node k).kind = .reg d →
      w.names a = some k ∨ 3 ≤ w.nlink k
  | _ => True

/-- Two repository files of one inode are the same file. -/
theorem Good.repo_unique (hg : Good sha1 w) {q q' : Path Tree} {i : ℕ} {d : Bytes}
    (hq : q.root = .repository) (hq' : q'.root = .repository) (hi : w.names q = some i)
    (hi' : w.names q' = some i) (hk : (w.node i).kind = .reg d) : q' = q := by
  rw [hg.integrity q d hq (content_eq_some.mpr ⟨i, hi, hk⟩),
    hg.integrity q' d hq' (content_eq_some.mpr ⟨i, hi', hk⟩)]

/-- Where `p` lost its inode and the repository file of its content was collected, every
repository file that is left has a name besides its own and `p`. -/
theorem exists_name_of_collected (hg : Good sha1 w) (ho : NoOrphan w)
    (h_root : p.root = .workdir) (h_target : ∀ k, v.names p = some k → w.next ≤ k)
    (h_other : ∀ q, q ≠ p → (∀ d, w.content p = some d → q ≠ repoPath sha1 d) →
      v.names q = w.names q)
    (h_repo : ∀ d, w.content p = some d → Collected w v (repoPath sha1 d)) {q : Path Tree}
    (hq : q.root = .repository) {k : ℕ} {d : Bytes} (hk : w.names q = some k)
    (hk' : v.names q = some k) (h_kind : (w.node k).kind = .reg d) :
    ∃ q', q' ≠ q ∧ q' ≠ p ∧ v.names q' = some k := by
  have h_lt := w.names_lt q k hk
  have h_ne : ∀ q', v.names q' = some k → q' ≠ p := by
    rintro q' hq' rfl
    have := h_target k hq'
    omega
  by_cases h_old : ∃ d', w.content p = some d' ∧ q = repoPath sha1 d'
  · obtain ⟨d', hd', rfl⟩ := h_old
    rcases h_repo d' hd' with ⟨-, h_kept⟩ | ⟨h_gone, -⟩
    · obtain ⟨q', hqq, hq'⟩ := h_kept k hk
      exact ⟨q', hqq, h_ne q' hq', hq'⟩
    · simp [h_gone] at hk'
  · push Not at h_old
    -- the second name the file had is neither `p` nor in the repository
    obtain ⟨q', hqq, hq'⟩ := (w.two_le_nlink_iff hk).mp (ho q k d hq hk h_kind)
    have h_integrity := hg.integrity q d hq (content_eq_some.mpr ⟨k, hk, h_kind⟩)
    have hqp : q' ≠ p := by
      rintro rfl
      exact h_old d (content_eq_some.mpr ⟨k, hq', h_kind⟩) h_integrity
    have h_same : v.names q' = w.names q' := h_other q' hqp fun d' hd' h_eq =>
      hqq (hg.repo_unique hq (by rw [h_eq]; rfl) hk hq' h_kind)
    exact ⟨q', hqq, hqp, by rw [h_same, hq']⟩

/-- **One operation.** -/
theorem OpEffect.noOrphan (hg : Good sha1 w) (ho : NoOrphan w) {op : Op}
    (h_ref : op.KeepsReference w) (h : OpEffect sha1 w op w') : NoOrphan w' := by
  intro q k d hq hk h_kind
  rw [w'.two_le_nlink_iff hk]
  cases h with
  | @session ws w' _ _ c s₃ h_root _ h_writing h_dedup =>
    -- the collector keeps a second name for what it leaves, except where the written file now is
    by_cases hqr : q = repoPath sha1 c
    · obtain ⟨m, hm_p, hm_r, -⟩ := h_dedup.content h_writing.env h_writing.alone.names
        h_writing.kind
      obtain rfl : m = k := Option.some.inj (hm_r.symm.trans (hqr ▸ hk))
      exact ⟨ws.path, ne_of_root h_root hq, hm_p⟩
    · obtain ⟨hk₀, hk₃⟩ := session_repo_names h_root h_writing h_dedup hq hqr hk h_kind
      rw [(h_writing.keeps.trans h_dedup.keeps).node_of_names hk₀] at h_kind
      have h_target : ∀ m, s₃.fs.names ws.path = some m → w.next ≤ m := fun m hm => by
        rw [← Option.some.inj (h_writing.alone.names.symm.trans hm)]
        exact h_writing.fresh
      obtain ⟨q', hqq, hqp, hq'⟩ := exists_name_of_collected hg ho h_root h_target
        h_writing.other h_writing.repo hq hk₀ hk₃ h_kind
      exact ⟨q', hqq, h_dedup.names_of_ne hqp hq'⟩
  | @unlink p d' w' h_root hd h =>
    have h_content : ∀ d'', w.content p = some d'' → d' = d'' := fun d'' hd'' =>
      Option.some.inj (hd.symm.trans hd'')
    -- the entry was there before, so the collector is all that could have taken its second name
    have hk₀ : w.names q = some k := by
      by_cases hqr : q = repoPath sha1 d'
      · rcases h.repo with ⟨h_kept, -⟩ | ⟨h_gone, -⟩
        · rw [hqr, ← h_kept, ← hqr, hk]
        · simp [hqr, h_gone] at hk
      · rw [← h.other q (ne_of_root h_root hq).symm hqr, hk]
    rw [h.keeps.node_of_names hk₀] at h_kind
    obtain ⟨q', hqq, -, hq'⟩ := exists_name_of_collected hg ho h_root (by simp [h.target])
      (fun q' hqp h_ne => h.other q' hqp (h_ne d' hd)) (fun d'' hd'' => h_content d'' hd'' ▸ h.repo)
      hq hk₀ hk h_kind
    exact ⟨q', hqq, hq'⟩
  | @link a b i ha hb _ hi h_none =>
    have hk₀ : w.names q = some k :=
      (Function.update_of_ne (ne_of_root hb hq).symm _ _).symm.trans hk
    obtain ⟨q', hqq, hq'⟩ := (w.two_le_nlink_iff hk₀).mp (ho q k d hq hk₀ h_kind)
    -- the second name is not the one that is made
    have hqb : q' ≠ b := by
      rintro rfl
      simp [h_none] at hq'
    exact ⟨q', hqq, (Function.update_of_ne hqb _ _).trans hq'⟩
  | @rename a b fl w' ha hb _ h =>
    have h_same : w'.names q = w.names q :=
      h.frame q (fun h => by simp [h.1, ha] at hq) (fun h => by simp [h.1, hb] at hq)
    have hk₀ : w.names q = some k := by rw [← h_same, hk]
    rw [h.keeps.node_of_names hk₀] at h_kind
    -- a name of the inode that is not overwritten
    obtain ⟨q', hqq, hq', h_over⟩ : ∃ q', q' ≠ q ∧ w.names q' = some k ∧
        ¬ (q' = b ∧ fl = .none ∧ w.names a ≠ w.names b) := by
      obtain ⟨q', hqq, hq'⟩ := (w.two_le_nlink_iff hk₀).mp (ho q k d hq hk₀ h_kind)
      by_cases h_over : q' = b ∧ fl = .none ∧ w.names a ≠ w.names b
      · obtain ⟨rfl, rfl, h_ne⟩ := h_over
        rcases h_ref k d hq' h_kind with h_a | h_three
        · exact absurd (h_a.trans hq'.symm) h_ne
        · obtain ⟨r, hr, hrq, hrb⟩ := w.exists_third_name h_three q q'
          exact ⟨r, hrq, hr, fun h => hrb h.1⟩
      · exact ⟨q', hqq, hq', h_over⟩
    obtain ⟨r, hr, hr_root⟩ := (h.dst q' k hq').resolve_right h_over
    refine ⟨r, ?_, hr⟩
    rintro rfl
    have hq'_root : q'.root = .repository := by rw [← hr_root (ha.trans hb.symm), hq]
    exact hqq (hg.repo_unique hq hq'_root hk₀ hq' h_kind)
  | failed => exact (w.two_le_nlink_iff hk).mp (ho q k d hq hk h_kind)

/-- A rename in a good state that overwrites the last working file of a content does leave an
orphan. -/
theorem orphan_of_rename (hg : Good sha1 w) {a b : Path Tree} (ha : a.root = .workdir)
    (hb : b.root = .workdir) {i k : ℕ} {ca cb : Bytes} (hi : w.names a = some i)
    (hk : w.names b = some k) (h_a : (w.node i).kind = .reg ca) (h_b : (w.node k).kind = .reg cb)
    (h_dir : w.isDir b.parent) (h_ne : i ≠ k) (h_last : w.nlink k < 3) :
    ¬ NoOrphan (answer w (.renameat2 a b .none)).2 := by
  have hab : a ≠ b := by
    rintro rfl
    exact h_ne (Option.some.inj (hi.symm.trans hk))
  have h_not_dir : ∀ {q m c}, w.names q = some m → (w.node m).kind = .reg c →
      w.isDir q = false := by
    intro q m c hm h_kind
    rw [Bool.eq_false_iff, Ne, isDir_iff, kind?_of_names hm, h_kind]
    simp
  rw [answer_renameat2 hi (h_not_dir hi h_a) (h_not_dir hk h_b)
    (by rw [hk, Ne, Option.some.injEq]; exact h_ne.symm) h_dir]
  have h_names := moveName_names w hab
  have h_same : ∀ q, q ≠ a → q ≠ b → (w.moveName a b).names q = w.names q := fun q hqa hqb => by
    rw [h_names, Function.update_of_ne hqa, Function.update_of_ne hqb]
  have hr : w.names (repoPath sha1 cb) = some k := by
    rw [← hg.linked b cb hb (content_eq_some.mpr ⟨k, hk, h_b⟩), hk]
  have hr' : (w.moveName a b).names (repoPath sha1 cb) = some k := by
    rw [h_same _ (ne_of_root ha rfl).symm (ne_of_root hb rfl).symm, hr]
  intro ho
  obtain ⟨q, hqr, hq⟩ := ((w.moveName a b).two_le_nlink_iff hr').mp (ho _ k cb rfl hr' h_b)
  have hqa : q ≠ a := by
    rintro rfl
    simp [h_names] at hq
  have hqb : q ≠ b := by
    rintro rfl
    rw [h_names, Function.update_of_ne hab.symm, Function.update_self, hi] at hq
    exact h_ne (Option.some.inj hq)
  rw [h_same q hqa hqb] at hq
  have := w.three_le_nlink hk hr hq (ne_of_root hb rfl) hqb.symm hqr.symm
  omega

theorem NoOrphan.of_dom (h : ∀ q ∈ w.dom, q.root = .repository → ∀ i ∈ w.names q,
    ∀ _d ∈ w.content q, 2 ≤ w.nlink i) : NoOrphan w := by
  intro q i d hq hi hk
  exact h q ((w.mem_dom q).mpr (by simp [hi])) hq i hi d (content_eq_some.mpr ⟨i, hi, hk⟩)

/-- Requests of one thread. -/
def ofThread (rs : List (Request Tree)) : List (Caller × Request Tree) :=
  rs.map fun r => (⟨7, .ENOENT⟩, r)

theorem ofThread_snd (rs : List (Request Tree)) : (ofThread rs).map Prod.snd = rs := by
  simp [ofThread]

/-- A session that creates a file and writes one byte. -/
def writeByte (p : Path Tree) (b : UInt8) : WriteSession :=
  ⟨p, ⟨.wronly, true, false, false, false⟩, some 0o644, [([b], 0)]⟩

/-- Creating a file and writing one byte fits. -/
private theorem writeByte_fits {p : Path Tree} {b : UInt8} (h_root : p.root = .workdir)
    (h_clean : Clean p) (hp : w.isDir p.parent) (h_none : w.names p = none)
    (h_cred : w.cred.uid = 0) : (writeByte p b).Fits w :=
  ⟨rfl, h_root, h_clean, hp, Or.inr ⟨h_none, rfl, by simp [WriteSession.result, writeByte,
    WriteSession.written, writeAt, maxRwCount], by simp [Cred.permits, h_cred],
    by simp [Cred.permits, h_cred]⟩⟩

end GitlstreeFS.Cowfs
