import GitlstreeFS.Cowfs.Spec
import GitlstreeFS.Ptfs.Spec

/-!
# The environment is kept

`Env` holds again after everything cowfs does on a path: after a file was linked with the
repository (`Env.deduped`) or unlinked from it (`Env.broken`), after a file was created
(`Env.create`) and after a file without other names was written (`Env.setNode`).
-/

namespace GitlstreeFS

namespace Cowfs

open Effect Posix FileSystem

variable {sha1 : Bytes → Bytes} {w w' : FileSystem Tree} {p : Path Tree} {i : ℕ} {d : Bytes}

/-- The environment is a condition on the names there are. -/
theorem Env.of_dom (hs : Function.Injective sha1) (h_cred : w.cred.uid = 0)
    (h_top : w.isDir ⟨.repository, []⟩)
    (h : ∀ q ∈ w.dom, (∀ n ∈ q.rel, '.' ∉ n) ∧ (q.root = .repository →
      (q.rel.length = 1 → w.isDir q) ∧
      (q.rel.length = 2 → ∃ c ∈ w.content q, q = repoPath sha1 c))) : Env sha1 w := by
  have h_mem : ∀ {q}, w.names q ≠ none → q ∈ w.dom := fun hq =>
    (w.mem_dom _).mpr (Option.isSome_iff_ne_none.mpr hq)
  refine ⟨fun q hq => clean_of_no_dot (h q (h_mem hq)).1, h_top, fun d hd => ?_, fun d i hi => ?_,
    fun q i d _ _ => by simp [Cred.permits, h_cred]⟩
  · exact ((h _ (h_mem hd)).2 rfl).1 rfl
  · obtain ⟨c, hc, h_eq⟩ := ((h (repoPath sha1 d) (h_mem (by simp [hi]))).2 rfl).2 rfl
    obtain rfl := repoPath_injective hs h_eq
    rw [Option.mem_def, content_iff, kind?_of_names hi] at hc
    exact Option.some.inj hc

/-! ### Files without other names -/

/-- `p` is the only name of the inode `i`. -/
structure Alone (w : FileSystem Tree) (p : Path Tree) (i : ℕ) : Prop where
  names : w.names p = some i
  only : ∀ q, w.names q = some i → q = p

theorem alone_of_nlink (hi : w.names p = some i) (h : w.nlink i = 1) : Alone w p i :=
  ⟨hi, (w.nlink_eq_one_iff hi).mp h⟩

/-- A file made by `openat` has no other name. -/
theorem alone_create (p : Path Tree) (n : Inode Tree) :
    Alone ((w.alloc n).setName p w.next) p w.next := by
  refine ⟨Function.update_self _ _ _, fun q hq => ?_⟩
  by_contra h
  exact w.names_ne_next q (le_refl _) ((Function.update_of_ne h _ _).symm.trans hq)

/-- A broken link leaves the path alone with its inode. -/
theorem Broken.alone (h : Broken sha1 w p i d w') : ∃ j, w.next ≤ j ∧ Alone w' p j ∧
    (w'.node j).kind = .reg d ∧
    ∀ bit < 3, w.cred.permits (w'.node j).attr bit = w.cred.permits (w.node i).attr bit := by
  obtain ⟨j, hj, h_next, h_kind, h_perm⟩ := h.fresh
  refine ⟨j, h_next, ⟨hj, fun q hq => ?_⟩, h_kind, h_perm⟩
  by_contra h_ne
  by_cases hr : q = repoPath sha1 d
  · rcases h.repo with ⟨h_same, -⟩ | ⟨h_none, -⟩
    · exact w.names_ne_next _ h_next (h_same.symm.trans (hr ▸ hq))
    · rw [hr, h_none] at hq
      simp at hq
  · exact w.names_ne_next q h_next ((h.other q h_ne hr).symm.trans hq)

/-- Every other name of a broken state was there before. -/
theorem Broken.names_of_ne {q : Path Tree} {k : ℕ} (h : Broken sha1 w p i d w') (hq : q ≠ p)
    (hk : w'.names q = some k) : w.names q = some k := by
  by_cases hr : q = repoPath sha1 d
  · rcases h.repo with ⟨h_same, -⟩ | ⟨h_none, -⟩
    · rw [hr, ← h_same, ← hr, hk]
    · rw [hr, h_none] at hk
      simp at hk
  · rw [← h.other q hq hr, hk]

namespace Unshared

theorem keeps (h : Unshared sha1 w p w') : Keeps w w' := by
  cases h with
  | same _ h_keeps _ => exact h_keeps
  | broken _ _ _ _ _ h => exact h.keeps

/-- No other working file moves. -/
theorem names_workdir {q : Path Tree} (h : Unshared sha1 w p w') (hq : q ≠ p)
    (h_root : q.root = .workdir) : w'.names q = w.names q := by
  cases h with
  | same _ _ h_names => rw [h_names]
  | broken _ _ _ _ _ h => exact h.other q hq (ne_of_root h_root rfl)

theorem isDir_workdir {q : Path Tree} (h : Unshared sha1 w p w') (h_root : q.root = .workdir)
    (hq : w.isDir q) : w'.isDir q := by
  by_cases hp : q = p
  · cases h with
    | same _ h_keeps h_names => rw [h_keeps.isDir (by rw [h_names]), hq]
    | broken i d hi hk _ _ =>
      rw [isDir_iff, hp, kind?_of_names hi, hk] at hq
      simp at hq
  · rw [h.keeps.isDir (h.names_workdir hp h_root), hq]

/-- The path shows what it showed, and has no second name. -/
theorem target (h : Unshared sha1 w p w') :
    (w.names p = none ∧ w'.names p = none) ∨
      ∃ i j, w.names p = some i ∧ Alone w' p j ∧ (w'.node j).kind = (w.node i).kind ∧
        ∀ bit < 3, w.cred.permits (w'.node j).attr bit = w.cred.permits (w.node i).attr bit := by
  cases h with
  | same h_one h_keeps h_names =>
    rcases hi : w.names p with _ | i
    · exact Or.inl ⟨rfl, by rw [h_names, hi]⟩
    · refine Or.inr ⟨i, i, rfl, alone_of_nlink (by rw [h_names, hi]) ?_, ?_, ?_⟩
      · rw [← h_one i hi]
        exact nlink_congr fun q => by rw [h_names]
      · rw [h_keeps.node_of_names hi]
      · simp [h_keeps.node_of_names hi]
  | broken i d hi hk _ h =>
    obtain ⟨j, -, h_alone, h_kind, h_perm⟩ := h.alone
    exact Or.inr ⟨i, j, hi, h_alone, by rw [h_kind, hk], h_perm⟩

end Unshared

/-! ### Keeping the environment -/

/-- States with the same names. -/
theorem Env.same (hw : Env sha1 w) (h : Keeps w w') (h_names : w'.names = w.names) :
    Env sha1 w' := by
  have h_same : ∀ q, w'.names q = w.names q := fun q => by rw [h_names]
  refine ⟨?_, ?_, ?_, ?_, ?_⟩
  · exact fun q hq => hw.tidy q (h_same q ▸ hq)
  · rw [h.isDir (h_same _), hw.top]
  · intro d hd
    rw [h.isDir (h_same _), hw.dirs d (h_same _ ▸ hd)]
  · intro d i hi
    rw [h_same] at hi
    rw [h.node_of_names hi, hw.files d i hi]
  · intro q i d hi hk
    rw [h_same] at hi
    rw [h.node_of_names hi] at hk ⊢
    rw [h.cred]
    exact hw.access q i d hi hk

theorem Env.broken (hw : Env sha1 w) (h_clean : Clean p) (h_root : p.root = .workdir)
    (hi : w.names p = some i) (hk : (w.node i).kind = .reg d) (h : Broken sha1 w p i d w') :
    Env sha1 w' := by
  obtain ⟨j, h_next, h_alone, h_kind, h_perm⟩ := h.alone
  refine ⟨?_, ?_, ?_, ?_, ?_⟩
  · intro q hq
    by_cases hqp : q = p
    · exact hqp ▸ h_clean
    · obtain ⟨k, hk⟩ := Option.ne_none_iff_exists'.mp hq
      exact hw.tidy q (by rw [h.names_of_ne hqp hk]; simp)
  · rw [h.keeps.isDir (h.other _ (ne_of_root h_root rfl).symm ?_), hw.top]
    exact fun h => by simpa [repoPath, repoDir, Path.child] using congrArg Path.rel h
  · intro d' hd
    have h_same := h.other (repoDir sha1 d') (ne_of_root h_root rfl).symm
      (repoPath_ne_repoDir d d').symm
    rw [h_same] at hd
    rw [h.keeps.isDir h_same, hw.dirs d' hd]
  · intro d' k hr
    have hr' := h.names_of_ne (ne_of_root h_root rfl).symm hr
    rw [h.keeps.node_of_names hr', hw.files d' k hr']
  · intro q k d' hq hk'
    by_cases hqp : q = p
    · subst hqp
      obtain rfl : j = k := Option.some.inj (h_alone.names.symm.trans hq)
      rw [h.keeps.cred, h_perm 2 (by omega), h_perm 1 (by omega)]
      exact hw.access q i d hi hk
    · have hq' := h.names_of_ne hqp hq
      rw [h.keeps.node_of_names hq'] at hk' ⊢
      rw [h.keeps.cred]
      exact hw.access q k d' hq' hk'

theorem Env.unshared (hw : Env sha1 w) (h_clean : Clean p) (h_root : p.root = .workdir)
    (h : Unshared sha1 w p w') : Env sha1 w' := by
  cases h with
  | same _ h_keeps h_names => exact hw.same h_keeps h_names
  | broken i d hi hk _ h => exact hw.broken h_clean h_root hi hk h

/-- Every inode that has a name after the linking, the directory that was made apart, had
one before. -/
theorem Deduped.exists_names {q : Path Tree} {k : ℕ} (h : Deduped sha1 w p d w')
    (hq : w'.names q = some k) :
    (∃ q', w.names q' = some k) ∨ q = repoDir sha1 d ∧ w'.isDir q := by
  have h_or : (w.names (repoPath sha1 d)).or (w.names p) = some k → ∃ q', w.names q' = some k := by
    intro h_or
    rcases hr : w.names (repoPath sha1 d) with _ | m
    · exact ⟨p, by rwa [hr, Option.none_or] at h_or⟩
    · exact ⟨_, by rw [hr, Option.some_or] at h_or; rw [hr, h_or]⟩
  by_cases hp : q = p
  · exact Or.inl (h_or (by rw [← h.target, ← hp, hq]))
  by_cases hr : q = repoPath sha1 d
  · exact Or.inl (h_or (by rw [← h.repo, ← hr, hq]))
  by_cases hd : q = repoDir sha1 d
  · subst hd
    rcases h.dir with h_same | ⟨-, h_dir⟩
    · exact Or.inl ⟨_, h_same ▸ hq⟩
    · exact Or.inr ⟨rfl, h_dir⟩
  · exact Or.inl ⟨q, by rw [← h.other q hp hr hd, hq]⟩

/-- A name other than the file's keeps its inode. -/
theorem Deduped.names_of_ne {q : Path Tree} {k : ℕ} (h : Deduped sha1 w p d w') (hp : q ≠ p)
    (hq : w.names q = some k) : w'.names q = some k := by
  by_cases hr : q = repoPath sha1 d
  · subst hr
    rw [h.repo, hq, Option.some_or]
  by_cases hd : q = repoDir sha1 d
  · subst hd
    rcases h.dir with h_same | ⟨h_none, -⟩
    · rw [h_same, hq]
    · simp [hq] at h_none
  · rw [h.other q hp hr hd, hq]

/-- The inode the file and the repository file have come to share. -/
theorem Deduped.content (hw : Env sha1 w) (hi : w.names p = some i)
    (hk : (w.node i).kind = .reg d) (h : Deduped sha1 w p d w') :
    ∃ k, w'.names p = some k ∧ w'.names (repoPath sha1 d) = some k ∧
      (w'.node k).kind = .reg d := by
  rcases hr : w.names (repoPath sha1 d) with _ | k
  · refine ⟨i, ?_, ?_, by rw [h.keeps.node_of_names hi, hk]⟩
    · rw [h.target, hr, hi, Option.none_or]
    · rw [h.repo, hr, hi, Option.none_or]
  · refine ⟨k, ?_, ?_, by rw [h.keeps.node_of_names hr, hw.files d k hr]⟩
    · rw [h.target, hr, Option.some_or]
    · rw [h.repo, hr, Option.some_or]

theorem Env.deduped (hs : Function.Injective sha1) (hw : Env sha1 w) (h_clean : Clean p)
    (h_root : p.root = .workdir) (hi : w.names p = some i) (hk : (w.node i).kind = .reg d)
    (h : Deduped sha1 w p d w') : Env sha1 w' := by
  obtain ⟨k, hk_p, hk_r, hk_kind⟩ := h.content hw hi hk
  refine ⟨?_, ?_, ?_, ?_, ?_⟩
  · -- the paths that there are: the three that may be new are clean
    intro q hq
    by_cases hp : q = p
    · exact hp ▸ h_clean
    by_cases hr : q = repoPath sha1 d
    · exact hr ▸ repoPath_clean d
    by_cases hd : q = repoDir sha1 d
    · exact hd ▸ repoDir_clean d
    · exact hw.tidy q (h.other q hp hr hd ▸ hq)
  · -- the root of the repository is none of the three
    obtain ⟨m, hm, h_dir⟩ := kind?_eq_some.mp (isDir_iff.mp hw.top)
    have h_same : w'.names ⟨.repository, []⟩ = w.names ⟨.repository, []⟩ := by
      rw [hm]
      exact h.names_of_ne (ne_of_root h_root rfl).symm hm
    rw [h.keeps.isDir h_same, hw.top]
  · -- the directories of the repository
    intro d' hd'
    by_cases hd : repoDir sha1 d' = repoDir sha1 d
    · rw [hd] at hd' ⊢
      rcases h.dir with h_same | ⟨-, h_dir⟩
      · rw [h.keeps.isDir h_same, hw.dirs d (h_same ▸ hd')]
      · exact h_dir
    · have h_same := h.other (repoDir sha1 d') (ne_of_root h_root rfl).symm
        (repoPath_ne_repoDir d d').symm hd
      rw [h.keeps.isDir h_same, hw.dirs d' (h_same ▸ hd')]
  · -- its files: two contents have two paths, since `sha1` is injective
    intro d' m hm
    by_cases hd : d' = d
    · subst hd
      obtain rfl : k = m := Option.some.inj (hk_r.symm.trans hm)
      exact hk_kind
    · have h_ne : repoPath sha1 d' ≠ repoPath sha1 d := fun h => hd (repoPath_injective hs h)
      rw [h.other _ (ne_of_root h_root rfl).symm h_ne (repoPath_ne_repoDir d' d)] at hm
      rw [h.keeps.node_of_names hm, hw.files d' m hm]
  · -- every file has its inode from a name that was there before
    intro q m d' hq hm
    rcases h.exists_names hq with ⟨q', hq'⟩ | ⟨-, h_dir⟩
    · rw [h.keeps.node_of_names hq'] at hm ⊢
      rw [h.keeps.cred]
      exact hw.access q' m d' hq' hm
    · -- a new inode is that of a directory
      rw [isDir_iff, kind?_of_names hq, hm] at h_dir
      simp at h_dir

/-- A new regular file. -/
theorem Env.create (hw : Env sha1 w) (h_clean : Clean p) (h_root : p.root = .workdir)
    (hp : w.names p = none) {mode : Mode} (h_read : w.cred.permits (w.newAttr mode) 2)
    (h_write : w.cred.permits (w.newAttr mode) 1) :
    Env sha1 ((w.alloc (w.newInode (.reg []) mode)).setName p w.next) := by
  have h_keeps : Keeps w ((w.alloc (w.newInode (.reg []) mode)).setName p w.next) :=
    (keeps_alloc _).trans (keeps_setName _ _)
  have h_names : ∀ q, q ≠ p →
      ((w.alloc (w.newInode (.reg []) mode)).setName p w.next).names q = w.names q :=
    fun q hq => Function.update_of_ne hq _ _
  refine ⟨?_, ?_, ?_, ?_, ?_⟩
  · intro q hq
    by_cases hqp : q = p
    · exact hqp ▸ h_clean
    · exact hw.tidy q (h_names q hqp ▸ hq)
  · rw [h_keeps.isDir (h_names _ (ne_of_root h_root rfl).symm), hw.top]
  · intro d hd
    have h_same := h_names (repoDir sha1 d) (ne_of_root h_root rfl).symm
    rw [h_keeps.isDir h_same, hw.dirs d (h_same ▸ hd)]
  · intro d m hm
    rw [h_names (repoPath sha1 d) (ne_of_root h_root rfl).symm] at hm
    rw [h_keeps.node_of_names hm, hw.files d m hm]
  · intro q m d hq hm
    by_cases hqp : q = p
    · subst hqp
      obtain rfl : w.next = m := by simpa using hq
      simp [newInode, h_read, h_write]
    · rw [h_names q hqp] at hq
      rw [h_keeps.node_of_names hq] at hm ⊢
      exact hw.access q m d hq hm

/-- Writing a file that has no other name, in particular none in the repository. -/
theorem Env.setNode (hw : Env sha1 w) (h_root : p.root = .workdir) (h_alone : Alone w p i)
    {c : Bytes} (hk : (w.node i).kind = .reg c) (d : Bytes) {a : Attr}
    (ha : ∀ bit < 3, w.cred.permits a bit = w.cred.permits (w.node i).attr bit) :
    Env sha1 (w.setNode i ⟨.reg d, a⟩) := by
  have h_node : ∀ q k, w.names q = some k → q ≠ p →
      (w.setNode i ⟨.reg d, a⟩).node k = w.node k := by
    intro q k hq hqp
    refine Function.update_of_ne ?_ _ _
    rintro rfl
    exact hqp (h_alone.only q hq)
  have h_dir : ∀ q, q ≠ p → w.isDir q → (w.setNode i ⟨.reg d, a⟩).isDir q := by
    intro q hqp hq
    rw [isDir_iff, kind?_eq_some] at hq ⊢
    obtain ⟨k, hk, h_kind⟩ := hq
    exact ⟨k, hk, by rw [h_node q k hk hqp, h_kind]⟩
  refine ⟨hw.tidy, h_dir _ (ne_of_root h_root rfl).symm hw.top, ?_, ?_, ?_⟩
  · exact fun d' hd => h_dir _ (ne_of_root h_root rfl).symm (hw.dirs d' hd)
  · intro d' k hr
    rw [h_node _ k hr (ne_of_root h_root rfl).symm, hw.files d' k hr]
  · intro q k d' hq hk'
    by_cases hqp : q = p
    · subst hqp
      obtain rfl : i = k := Option.some.inj (h_alone.names.symm.trans hq)
      simp only [setNode_node, Function.update_self, setNode_cred, ha 2 (by omega),
        ha 1 (by omega)]
      exact hw.access q i c hq hk
    · rw [h_node q k hq hqp] at hk' ⊢
      exact hw.access q k d' hq hk'

/-! ### Opening -/

/-- `Open` and `Create` for writing: what the pass-through method does in the state with the
link broken. -/
theorem wp_openBroken {tid : ℕ} {e : Errno} {fl : OpenFlags} (hw : Env sha1 w)
    (h_clean : Clean p) (h_root : p.root = .workdir) (hp : w.isDir p.parent) (hf : fl.writes)
    (h_reg : ∀ i, w.names p = some i → ∃ d, (w.node i).kind = .reg d ∧
      (w.nlink i = 1 ∨ d.length ≤ maxRwCount))
    {openFd : Proc Tree (Except Errno OpenFile)}
    {Q : Except Errno CowFileHandle → Errno → FileSystem Tree → Prop}
    (h : ∀ e' w', Unshared sha1 w p w' →
      (machine Tree).Wp openFd e' w' fun r => Q (r.map (CowFileHandle.mk p))) :
    (machine Tree).Wp (openBroken sha1 tid p fl openFd) e w Q := by
  unfold openBroken
  rw [if_pos hf]
  refine wp_seq (wp_maybeBreakHardlink hw h_clean h_root hp h_reg fun e' w' hu => ?_)
  rw [if_pos rfl]
  exact wp_seq ((h e' w' hu).mono fun _ _ _ => wp_pure)

theorem cowfsHandler_answer_opening {r : Request Tree} {fl : OpenFlags} {mode : Mode}
    {s : Session Tree CowFileHandle} (hr : r.opening? = some (p, fl, mode)) (tid : ℕ) :
    (cowfsHandler sha1).answer s tid r
      = Handler.reply .opened (openBroken sha1 tid p fl (Ptfs.create p fl mode)) := by
  cases r with
  | open' q fl' =>
    obtain ⟨rfl, rfl, rfl⟩ : q = p ∧ fl' = fl ∧ 0 = mode := by simpa [Request.opening?] using hr
    exact congrArg (fun o => Handler.reply .opened (openBroken sha1 tid q fl' o))
      (Ptfs.open'_eq_create _ _)
  | create q fl' mode' =>
    obtain ⟨rfl, rfl, rfl⟩ : q = p ∧ fl' = fl ∧ mode' = mode := by
      simpa [Request.opening?] using hr
    rfl
  | _ => simp [Request.opening?] at hr

end Cowfs

end GitlstreeFS
