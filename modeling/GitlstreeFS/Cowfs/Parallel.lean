import GitlstreeFS.Cowfs.Interference

/-!
# Nothing is lost

The threads of a `Crew`, verified call by call: `runs_job` says that under interference by the
others each job keeps to the guarantee, does not end the process and leaves no name behind that it
made up. `lossless` puts the threads together.

The three races of a deduplication show in its proof. A repository file that is missing may be there
when the file is linked to it, and is then replaced (`runs_linkToRepo`). One that was found may be
gone, and the deduplication is given up (`runs_hardlinkFresh`). And it may have become another file of
the same content, but not the file to be deduplicated itself, since nobody else links that one with
the repository (`Follows.foreign`).
-/

namespace GitlstreeFS.Cowfs

open Effect Posix FileSystem Relation

namespace Crew

variable {sha1 : Bytes → Bytes} {ι : Type} {α β : Type} (crew : Crew sha1 ι)

/-! ### Judgments -/

/-- The judgment of thread `i`: no call fails but by the state, and the thread does not abort. -/
abbrev Runs (i : ι) (Q : α → FileSystem Tree → Prop) (p : Proc Tree α) (e : Errno)
    (s : FileSystem Tree) : Prop :=
  (machine Tree).Safe (fun f => f = none) False (crew.Rely i) (crew.Guarantee i) Q p e s

variable {crew} {i : ι} {p : Path Tree} {s s' s'' : FileSystem Tree} {e : Errno} {d : Bytes} {k : ℕ}

section Rules

variable {Q : α → FileSystem Tree → Prop}

theorem runs_pure (h : crew.Inv s) {a : α} (hQ : ∀ s', crew.Undisturbed i s s' → Q a s') :
    crew.Runs i Q (pure a) e s :=
  fun s' hs' => hQ s' (undisturbed h hs')

/-- A call, whose answer is known in every state the other threads may have led to. -/
theorem runs_sys (h : crew.Inv s) {c : SysCall Tree} {f : Except Errno c.Val → Proc Tree α}
    (hc : ∀ s', crew.Undisturbed i s s' → ∃ r s'', answer s' c = (r, s'') ∧
      crew.Guarantee i s' s'' ∧ crew.Runs i Q (f r) (errnoAfter e r) s'') :
    crew.Runs i Q (sys c >>= f) e s := by
  intro s' hs' x hx
  obtain rfl : x = none := hx
  obtain ⟨r, s'', h_answer, h_guarantee, h_rest⟩ := hc s' (undisturbed h hs')
  rw [machine_exec_none, h_answer]
  exact ⟨h_guarantee, h_rest⟩

/-- A call that looks and changes nothing. -/
theorem runs_look (h : crew.Inv s) {c : SysCall Tree} {f : Except Errno c.Val → Proc Tree α}
    (hc : ∀ s', crew.Undisturbed i s s' → ∃ r, answer s' c = (r, s') ∧
      crew.Runs i Q (f r) (errnoAfter e r) s') :
    crew.Runs i Q (sys c >>= f) e s := by
  refine runs_sys h fun s' hs' => ?_
  obtain ⟨r, h_answer, h_rest⟩ := hc s' hs'
  exact ⟨r, s', h_answer, .refl i s', h_rest⟩

/-- A retried call that succeeds at once. -/
theorem runs_sysUntilOk (h : crew.Inv s) {c : SysCall Tree} {f : c.Val → Proc Tree α}
    (hc : ∀ s', crew.Undisturbed i s s' → ∃ v s'', answer s' c = (.ok v, s'') ∧
      crew.Guarantee i s' s'' ∧ ∀ e', crew.Runs i Q (f v) e' s'') :
    crew.Runs i Q (sysUntilOk c >>= f) e s := by
  intro s' hs' x hx
  obtain rfl : x = none := hx
  obtain ⟨v, s'', h_answer, h_guarantee, h_rest⟩ := hc s' (undisturbed h hs')
  rw [machine_exec_none, h_answer]
  refine ⟨h_guarantee, fun v' hv' e' => ?_⟩
  obtain rfl : v = v' := Except.ok.inj hv'
  exact h_rest e'

theorem runs_getErrno {f : Errno → Proc Tree α} (h : crew.Runs i Q (f e) e s) :
    crew.Runs i Q (Prog.getErrno >>= f) e s :=
  h

theorem runs_seq {P : β → FileSystem Tree → Prop} {q : Proc Tree β} {f : β → Proc Tree α}
    (hq : crew.Runs i P q e s) (hf : ∀ b e' s', P b s' → crew.Runs i Q (f b) e' s') :
    crew.Runs i Q (q >>= f) e s :=
  Machine.safe_bind hq hf

theorem runs_ite {c : Prop} [Decidable c] {q q' : Proc Tree α} (hq : c → crew.Runs i Q q e s)
    (hq' : ¬ c → crew.Runs i Q q' e s) : crew.Runs i Q (if c then q else q') e s := by
  split
  · exact hq ‹_›
  · exact hq' ‹_›

end Rules

/-! ### What a job does for its thread -/

variable (crew) in
/-- A later state, seen by the thread `i` after it has worked on `p`: what it made up is as it was, and
so are its other targets. -/
structure Worked (i : ι) (p : Path Tree) (s s' : FileSystem Tree) : Prop where
  inv : crew.Inv s'
  keeps : Keeps s s'
  target : ∀ q, .dedup q ∈ crew.jobs i → q ≠ p → s'.names q = s.names q
  own : ∀ q, crew.Own i q → s'.names q = s.names q

theorem Undisturbed.worked (h : crew.Undisturbed i s s') (p : Path Tree) : crew.Worked i p s s' :=
  ⟨h.inv, h.keeps, fun q hq _ => h.target q hq, h.own⟩

theorem Worked.trans (h : crew.Worked i p s s') (h' : crew.Worked i p s' s'') :
    crew.Worked i p s s'' where
  inv := h'.inv
  keeps := h.keeps.trans h'.keeps
  target q hq hqp := (h'.target q hq hqp).trans (h.target q hq hqp)
  own q hq := (h'.own q hq).trans (h.own q hq)

/-- A change of names that the thread has made up, seen by itself. -/
theorem follows_own (h : crew.Inv s) (h_keeps : Keeps s s')
    (h_same : ∀ q, ¬ crew.Own i q → s'.names q = s.names q) : crew.Follows i s s' := by
  have h_clean : ∀ q, Clean q → s'.names q = s.names q := fun q hq =>
    h_same q fun h_own => h_own.not_clean hq
  refine ⟨h.step (.of_own h_keeps h_same), h_keeps, fun q hq => h_clean q (target_clean hq), ?_, ?_⟩
  · intro q g hq h_eq
    rw [← h_clean _ (digestPath_clean g), h_eq]
  · intro q hq h_dir
    rw [h_keeps.isDir (h_clean q hq), h_dir]

/-! ### Collection -/

/-- **`GarbageCollectOneRepoFile`** may remove another file than the one it has looked at. -/
theorem runs_collect (h : crew.Inv s) (g : Bytes) :
    crew.Runs i (fun _ s' => crew.Worked i (digestPath g) s s')
      (garbageCollectOneRepoFile (digestPath g)) e s := by
  unfold garbageCollectOneRepoFile
  refine runs_look h fun s₁ h₁ => ?_
  have h_done : ∀ {b : Bool} {e' : Errno},
      crew.Runs i (fun _ s' => crew.Worked i (digestPath g) s s') (pure b) e' s₁ :=
    runs_pure h₁.inv fun s' hs' => (h₁.trans hs').worked _
  rcases hk : s₁.names (digestPath g) with _ | k
  · exact ⟨_, answer_fstatat_missing hk true, h_done⟩
  refine ⟨_, answer_fstatat_of_resolve (resolve_nofollow hk), ?_⟩
  refine runs_ite (fun h_one => ?_) (fun _ => h_done)
  have h_free : ¬ crew.Pinned g := by
    obtain ⟨d, h_reg, -⟩ := h₁.inv.files g k hk
    rw [stat_nlink, stNlink_of_not_dir (by simp [h_reg])] at h_one
    exact h₁.inv.not_pinned_of_nlink hk h_one
  refine runs_sys h₁.inv fun s₂ h₂ => ?_
  by_cases h_some : s₂.names (digestPath g) = none
  · refine ⟨_, _, answer_unlinkat_missing h_some, .refl i s₂, runs_getErrno ?_⟩
    exact runs_pure h₂.inv fun s' hs' => ((h₁.trans h₂).trans hs').worked _
  · have h_same : ∀ q, q ≠ digestPath g → (s₂.clearName (digestPath g)).names q = s₂.names q :=
      fun q hq => Function.update_of_ne hq _ _
    have h_step : crew.Guarantee i s₂ (s₂.clearName (digestPath g)) :=
      .of_touch (keeps_clearName _) (digestPath_clean g)
        (.collected g rfl h_free (Function.update_self _ _ _)) fun q _ => h_same q
    refine ⟨_, _, answer_unlinkat h_some (h₂.inv.isDir_digestPath g), h_step, ?_⟩
    have h_worked : crew.Worked i (digestPath g) s₂ (s₂.clearName (digestPath g)) :=
      ⟨h₂.inv.step h_step, h_step.keeps, fun q _ hq => h_same q hq, fun q hq =>
        h_same q (ne_of_clean hq.not_clean (digestPath_clean g)).symm⟩
    exact runs_pure h_worked.inv fun s' hs' =>
      (((h₁.trans h₂).worked _).trans h_worked).trans (hs'.worked _)

/-! ### Linking two files -/

section Hardlink

variable {src dst : Path Tree} {Q : Bool → FileSystem Tree → Prop}

/-- A temporary file whose name nothing has, and whose scope leaves no such file behind. -/
theorem runs_scopedTempFile (h_up : Clean dst.parent) (h_dir : s.isDir dst.parent) {opt : Name}
    (h_own : crew.Own i (tmpName dst opt (crew.tid i))) (h_tmp : s.names (tmpName dst opt (crew.tid i)) = none)
    (h : crew.Inv s) {scope : Path Tree → Proc Tree (Bool × Bool)}
    (h_scope : ∀ e₁ s₁, crew.Undisturbed i s s₁ →
      crew.Runs i (fun r s' => r.2 = false ∧ crew.Worked i p s s') (scope (tmpName dst opt (crew.tid i))) e₁ s₁) :
    crew.Runs i (fun _ s' => crew.Worked i p s s') (scopedTempFile dst opt (crew.tid i) scope) e s := by
  have h_tmp_up : (tmpName dst opt (crew.tid i)).parent = dst.parent := tmpName_parent dst
  unfold scopedTempFile
  generalize tmpName dst opt (crew.tid i) = tmp at h_own h_tmp h_tmp_up h_scope
  refine runs_seq (P := fun _ s' => crew.Undisturbed i s s') ?_ fun _ e₁ s₁ h₁ => ?_
  · -- the constructor finds no file of that name
    unfold scopedTempFileCtor
    refine runs_look h fun s₁ h₁ => ?_
    have h_free : s₁.names tmp = none := by rw [h₁.own tmp h_own, h_tmp]
    have h_dir₁ : s₁.isDir tmp.parent := by
      rw [h_tmp_up]
      exact h₁.isDir _ h_up h_dir
    refine ⟨_, answer_unlinkat_missing h_free, runs_getErrno ?_⟩
    rw [missing_of_isDir h_dir₁, errnoAfter_error, if_neg (by simp)]
    exact runs_pure h₁.inv fun s' hs' => h₁.trans hs'
  refine runs_seq (h_scope e₁ s₁ h₁) ?_
  rintro ⟨b, owned⟩ e' s' ⟨h_owned, h_worked⟩
  obtain rfl : owned = false := h_owned
  exact runs_pure h_worked.inv fun s'' hs'' => h_worked.trans (hs''.worked p)

/-- Linking `src` to `dst` under a name of the thread's own, where the move to `dst` is one of the
changes a thread may make. `src` may have become another file by then, or be gone. -/
theorem runs_hardlinkFresh (h : crew.Inv s) (h_clean : Clean dst) (h_up : Clean dst.parent)
    (h_dir : s.isDir dst.parent) (h_own : crew.Own i (tmpName dst "of".toList (crew.tid i)))
    (h_tmp : s.names (tmpName dst "of".toList (crew.tid i)) = none)
    (h_src : ∀ s₁ k, crew.Follows i s s₁ → s₁.names src = some k → s₁.isDir src = false)
    (h_move : ∀ s₁ s₂ s₃ k, crew.Follows i s s₁ → s₁.names src = some k → crew.Follows i s₁ s₂ →
      Keeps s₂ s₃ → s₃.names dst = some k →
      s₂.names dst ≠ some k ∧ s₂.isDir dst = false ∧ crew.Touch i s₂ s₃ dst)
    (h_target : ∀ q, .dedup q ∈ crew.jobs i → q ≠ p → q ≠ dst) :
    crew.Runs i (fun _ s' => crew.Worked i p s s') (hardlinkFresh (crew.tid i) src dst) e s := by
  have h_ne : dst ≠ tmpName dst "of".toList (crew.tid i) := ne_of_clean h_own.not_clean h_clean
  have h_tmp_up : (tmpName dst "of".toList (crew.tid i)).parent = dst.parent := tmpName_parent dst
  unfold hardlinkFresh
  refine runs_scopedTempFile h_up h_dir h_own h_tmp h fun e₁ s₁ h₁ => ?_
  generalize tmpName dst "of".toList (crew.tid i) = tmp at h_own h_tmp h_ne h_tmp_up
  refine runs_sys h₁.inv fun s₂ h₂ => ?_
  have h₁₂ := h₁.trans h₂
  rcases hk : s₂.names src with _ | k
  · -- somebody has collected the file in the meantime
    refine ⟨_, s₂, answer_linkat_missing hk, .refl i s₂, ?_⟩
    exact runs_pure h₂.inv fun s' hs' => ⟨rfl, (h₁₂.trans hs').worked p⟩
  -- the `linkat`: the temporary name is still free, since it is of this thread only
  have h_file := h_src s₂ k h₁₂.toFollows hk
  have h_free : s₂.names tmp = none := by rw [h₁₂.own tmp h_own, h_tmp]
  have h_dir₂ : s₂.isDir tmp.parent := by
    rw [h_tmp_up]
    exact h₁₂.isDir _ h_up h_dir
  have h_keeps : Keeps s₂ (s₂.setName tmp k) := keeps_setName tmp k
  have h_linked : ∀ q, q ≠ tmp → (s₂.setName tmp k).names q = s₂.names q := fun q hq =>
    Function.update_of_ne hq _ _
  have h_linked' : ∀ q, ¬ crew.Own i q → (s₂.setName tmp k).names q = s₂.names q := fun q hq =>
    h_linked q fun h_eq => hq (h_eq ▸ h_own)
  have h_link : crew.Follows i s₂ (s₂.setName tmp k) := follows_own h₂.inv h_keeps h_linked'
  refine ⟨_, _, answer_linkat hk h_file h_free h_dir₂, .of_own h_keeps h_linked', ?_⟩
  refine runs_sys h_link.inv fun s₃ h₃ => ?_
  -- between the two calls the others do not touch the temporary name
  have h_names : s₃.names tmp = some k := by
    rw [h₃.own tmp h_own]
    exact Function.update_self _ _ _
  have h_tmp_dir : s₃.isDir tmp = false := by
    have h_kind : s₃.kind? tmp = s₂.kind? src := by
      rw [kind?_of_names h_names, kind?_of_names hk, (h_keeps.trans h₃.keeps).node_of_names hk]
    rw [Bool.eq_false_iff, Ne, isDir_iff, h_kind, ← isDir_iff, h_file]
    simp
  -- the `renameat2`: what `h_move` says of `dst` holds at this very moment
  have h_moved := moveName_names s₃ h_ne.symm
  have h_moved_dst : (s₃.moveName tmp dst).names dst = some k := by
    rw [h_moved, Function.update_of_ne h_ne, Function.update_self, h_names]
  have h_moved_ne : ∀ q, q ≠ tmp → q ≠ dst → (s₃.moveName tmp dst).names q = s₃.names q :=
    fun q hq hq' => by rw [h_moved, Function.update_of_ne hq, Function.update_of_ne hq']
  obtain ⟨h_other, h_dst, h_touch⟩ := h_move s₂ s₃ (s₃.moveName tmp dst) k h₁₂.toFollows hk
    (h_link.trans h₃.toFollows) (keeps_moveName _ _) h_moved_dst
  have h_dst_up : s₃.isDir dst.parent :=
    (h_link.trans h₃.toFollows).isDir _ h_up (h₁₂.isDir _ h_up h_dir)
  have h_step : crew.Guarantee i s₃ (s₃.moveName tmp dst) :=
    .of_touch (keeps_moveName _ _) h_clean h_touch fun q hq =>
      h_moved_ne q fun h_eq => hq (h_eq ▸ h_own)
  refine ⟨_, _, answer_renameat2 h_names h_tmp_dir h_dst h_other h_dst_up, h_step, ?_⟩
  refine runs_pure (h₃.inv.step h_step) fun s₄ h₄ => ⟨rfl, ?_⟩
  -- the name is gone again, everything else of the thread's is as it was
  have h_chain : ∀ q, q ≠ tmp → q ≠ dst → s₄.names q = (s₃.moveName tmp dst).names q →
      s₃.names q = (s₂.setName tmp k).names q → s₂.names q = s.names q → s₄.names q = s.names q := by
    intro q hq hq' h_43 h_32 h_20
    rw [h_43, h_moved_ne q hq hq', h_32, h_linked q hq, h_20]
  refine ⟨h₄.inv, ?_, ?_, ?_⟩
  · exact h₁₂.keeps.trans (h_keeps.trans (h₃.keeps.trans (h_step.keeps.trans h₄.keeps)))
  · intro q hq hqp
    refine h_chain q (fun h_eq => ?_) (h_target q hq hqp) (h₄.target q hq) (h₃.target q hq)
      (h₁₂.target q hq)
    exact h_own.not_clean (h_eq ▸ target_clean hq)
  · intro q hq
    by_cases h_eq : q = tmp
    · subst h_eq
      rw [h₄.own q hq, h_moved, Function.update_self, h_tmp]
    · exact h_chain q h_eq (ne_of_clean hq.not_clean h_clean).symm (h₄.own q hq) (h₃.own q hq)
        (h₁₂.own q hq)

/-- **`HardlinkOneFile`.** Either the two paths denote one file, or `src` is missing or another file
than `dst` is a moment later. -/
theorem runs_hardlinkOneFile (h : crew.Inv s)
    (h_src : ∀ s₁ k t, crew.Follows i s s₁ → s₁.names src = some k → (s₁.node k).kind ≠ .symlink t)
    (h_dst : ∀ s₁ k t, crew.Follows i s s₁ → s₁.names dst = some k → (s₁.node k).kind ≠ .symlink t)
    (h_same : ∀ s₁, crew.Undisturbed i s s₁ → Q true s₁)
    (h_fresh : ∀ e₁ s₁ s₂, crew.Undisturbed i s s₁ → crew.Undisturbed i s₁ s₂ →
      s₁.names src = none ∨ s₁.names src ≠ s₂.names dst →
      crew.Runs i Q (hardlinkFresh (crew.tid i) src dst) e₁ s₂) :
    crew.Runs i Q (hardlinkOneFile (crew.tid i) src dst) e s := by
  unfold hardlinkOneFile
  refine runs_look h fun s₁ h₁ => ?_
  rcases hk : s₁.names src with _ | k
  · exact ⟨_, answer_fstatat_missing hk false, h_fresh _ s₁ s₁ h₁ (.refl h₁.inv i) (Or.inl hk)⟩
  refine ⟨_, answer_fstatat_of_resolve (resolve_follow hk fun t => h_src s₁ k t h₁.toFollows hk), ?_⟩
  refine runs_look h₁.inv fun s₂ h₂ => ?_
  rcases hj : s₂.names dst with _ | j
  · refine ⟨_, answer_fstatat_missing hj false, h_fresh _ s₁ s₂ h₁ h₂ (Or.inr ?_)⟩
    simp [hk, hj]
  refine ⟨_, answer_fstatat_of_resolve
    (resolve_follow hj fun t => h_dst s₂ j t (h₁.trans h₂).toFollows hj), ?_⟩
  refine runs_ite (fun _ => ?_) (fun h_ne => ?_)
  · exact runs_pure h₂.inv fun s' hs' => h_same s' ((h₁.trans h₂).trans hs')
  · refine h_fresh _ s₁ s₂ h₁ h₂ (Or.inr ?_)
    rw [hk, hj]
    exact fun h_eq => h_ne (Option.some.inj h_eq)

end Hardlink

/-! ### Deduplication -/

section Dedup

/-- A target in state `s`: `k` is the inode it had at the start, of content `d`. -/
structure Target (crew : Crew sha1 ι) (i : ι) (p : Path Tree) (k : ℕ) (d : Bytes)
    (s : FileSystem Tree) : Prop where
  inv : crew.Inv s
  job : .dedup p ∈ crew.jobs i
  start : crew.start.names p = some k
  reg : (crew.start.node k).kind = .reg d
  permits : crew.start.cred.permits (crew.start.node k).attr 2
  names : s.names p = some k
  /-- The temporary names are free. -/
  free : ∀ q, crew.Own i q → q ≠ lockName p → s.names q = none

theorem Target.follows (h : crew.Target i p k d s) (h' : crew.Follows i s s')
    (h_own : ∀ q, crew.Own i q → s'.names q = s.names q) : crew.Target i p k d s' :=
  ⟨h'.inv, h.job, h.start, h.reg, h.permits, by rw [h'.target p h.job, h.names], fun q hq hq' => by
    rw [h_own q hq, h.free q hq hq']⟩

theorem Target.undisturbed (h : crew.Target i p k d s) (h' : crew.Undisturbed i s s') :
    crew.Target i p k d s' :=
  h.follows h'.toFollows h'.own

theorem Target.node (h : crew.Target i p k d s) : s.node k = crew.start.node k :=
  h.inv.keeps.node_of_names h.start

theorem Target.kind (h : crew.Target i p k d s) : (s.node k).kind = .reg d := by
  rw [h.node, h.reg]

theorem Target.own_tmp (h : crew.Target i p k d s) : crew.Own i (tmpName p "of".toList (crew.tid i)) :=
  ⟨p, h.job, Or.inr (Or.inl rfl)⟩

theorem Target.own_repoTmp (h : crew.Target i p k d s) (g : Bytes) :
    crew.Own i (tmpName (digestPath g) "of".toList (crew.tid i)) :=
  ⟨p, h.job, Or.inr (Or.inr ⟨g, rfl⟩)⟩

/-- The working directory of a target is there. -/
theorem Target.parent (h : crew.Target i p k d s) : s.isDir p.parent := by
  have h_root : p.parent.root = .workdir := (Path.parent_root p).trans (target_root h.job)
  rw [isDir_iff, h.inv.work p.parent h_root (target_parent_clean h.job), ← isDir_iff]
  exact target_parent h.job

/-- **A file new to the repository** is linked there, in place of another one that may have come to be
there since. -/
theorem runs_store (h : crew.Target i p k d s) (h_free : ¬ crew.Pinned (sha1 d))
    (h_other : s.names (digestPath (sha1 d)) ≠ some k) (h_dir : s.isDir (digestDir (sha1 d))) :
    crew.Runs i (fun _ s' => crew.Worked i p s s')
      (hardlinkOneFile (crew.tid i) p (digestPath (sha1 d))) e s := by
  have h_names : ∀ {s₁}, crew.Follows i s s₁ → s₁.names p = some k := fun h₁ => by
    rw [h₁.target p h.job, h.names]
  have h_kind : ∀ {s₁}, crew.Follows i s s₁ → (s₁.node k).kind = .reg d := fun h₁ => by
    rw [h₁.keeps.node_of_names h.names, h.kind]
  -- nobody but this thread links `k` with the repository
  have h_other' : ∀ {s₁}, crew.Follows i s s₁ → s₁.names (digestPath (sha1 d)) ≠ some k := by
    intro s₁ h₁ h_eq
    rw [← h.start] at h_eq
    exact h_other ((h₁.foreign p (sha1 d) h.job h_eq).trans h.start)
  refine runs_hardlinkOneFile h.inv ?_ ?_ (fun s₁ h₁ => h₁.worked p) fun e₁ s₁ s₂ h₁ h₂ _ => ?_
  · intro s₁ j t h₁ hj
    obtain rfl : k = j := Option.some.inj ((h_names h₁).symm.trans hj)
    simp [h_kind h₁]
  · intro s₁ j t h₁ hj
    obtain ⟨d', h_reg, -⟩ := h₁.inv.files (sha1 d) j hj
    simp [h_reg]
  have h₁₂ := h₁.trans h₂
  have h_fresh : crew.Runs i (fun _ s' => crew.Worked i p s₂ s')
      (hardlinkFresh (crew.tid i) p (digestPath (sha1 d))) e₁ s₂ := by
    refine runs_hardlinkFresh h₂.inv (digestPath_clean _) (digestDir_clean _)
      (h₁₂.isDir _ (digestDir_clean _) h_dir) (h.own_repoTmp _) ?_ ?_ ?_ ?_
    · refine (h.undisturbed h₁₂).free _ (h.own_repoTmp _) fun h_eq => ?_
      exact lockName_ne_tmpName p _ of_mem_tempTags _ h_eq.symm
    · intro s₃ j h₃ hj
      obtain rfl : k = j := Option.some.inj ((h_names (h₁₂.toFollows.trans h₃)).symm.trans hj)
      rw [Bool.eq_false_iff, Ne, isDir_iff, kind?_of_names hj, h_kind (h₁₂.toFollows.trans h₃)]
      simp
    · intro s₃ s₄ s₅ j h₃ hj h₄ h_keeps h_moved
      have h_now := (h₁₂.toFollows.trans h₃).trans h₄
      obtain rfl : k = j := Option.some.inj ((h_names (h₁₂.toFollows.trans h₃)).symm.trans hj)
      refine ⟨h_other' h_now, h₄.inv.isDir_digestPath _, ?_⟩
      refine .stored p d k h.job h.start ?_ rfl h_free h_moved
      rw [h_keeps.node_of_names (h_names h_now), h_kind h_now]
    · intro q hq _
      exact ne_of_root (target_root hq) rfl
  exact h_fresh.mono fun _ s' h_worked => (h₁₂.worked p).trans h_worked

/-- **A file known to the repository** is replaced by a link of the one that is there by then. -/
theorem runs_share (hs : Function.Injective sha1) (h : crew.Target i p k d s) :
    crew.Runs i (fun _ s' => crew.Worked i p s s')
      (hardlinkOneFile (crew.tid i) (digestPath (sha1 d)) p) e s := by
  have h_names : ∀ {s₁}, crew.Follows i s s₁ → s₁.names p = some k := fun h₁ => by
    rw [h₁.target p h.job, h.names]
  have h_kind : ∀ {s₁}, crew.Follows i s s₁ → (s₁.node k).kind = .reg d := fun h₁ => by
    rw [h₁.keeps.node_of_names h.names, h.kind]
  -- every file that comes to be there has the content of the target
  have h_file : ∀ {s₁ j}, crew.Inv s₁ → s₁.names (digestPath (sha1 d)) = some j →
      (s₁.node j).kind = .reg d := by
    intro s₁ j h₁ hj
    obtain ⟨d', h_reg, h_digest⟩ := h₁.files (sha1 d) j hj
    rw [h_reg, hs h_digest]
  refine runs_hardlinkOneFile h.inv ?_ ?_ (fun s₁ h₁ => h₁.worked p) fun e₁ s₁ s₂ h₁ h₂ h_ne => ?_
  · intro s₁ j t h₁ hj
    simp [h_file h₁.inv hj]
  · intro s₁ j t h₁ hj
    obtain rfl : k = j := Option.some.inj ((h_names h₁).symm.trans hj)
    simp [h_kind h₁]
  have h₁₂ := h₁.trans h₂
  -- the two were different files when they were compared
  have h_other : s₁.names (digestPath (sha1 d)) ≠ crew.start.names p := by
    rw [h.start]
    rcases h_ne with h_none | h_ne
    · simp [h_none]
    · rwa [h_names h₁₂.toFollows] at h_ne
  have h_unpinned : ∀ g, crew.start.names (digestPath g) ≠ crew.start.names p := by
    intro g h_pin
    obtain ⟨d', h_reg, rfl⟩ := crew.files g k (h_pin.trans h.start)
    obtain rfl : d = d' := by simpa [h.reg] using h_reg
    exact h_other (h₁.inv.pinned i p _ h.job h_pin).2
  have h_fresh : crew.Runs i (fun _ s' => crew.Worked i p s₂ s')
      (hardlinkFresh (crew.tid i) (digestPath (sha1 d)) p) e₁ s₂ := by
    refine runs_hardlinkFresh h₂.inv (target_clean h.job) (target_parent_clean h.job)
      (h.undisturbed h₁₂).parent h.own_tmp ?_ ?_ ?_ fun q _ hqp => hqp
    · exact (h.undisturbed h₁₂).free _ h.own_tmp (lockName_ne_tmpName p p of_mem_tempTags _).symm
    · intro s₃ j h₃ hj
      rw [Bool.eq_false_iff, Ne, isDir_iff, kind?_of_names hj, h_file h₃.inv hj]
      simp
    · intro s₃ s₄ s₅ j h₃ hj h₄ h_keeps h_moved
      have h_now := (h₁₂.toFollows.trans h₃).trans h₄
      have h_diff : s₄.names p ≠ some j := by
        rw [h_names h_now]
        rintro h_eq
        refine h_other ((h₂.toFollows.trans h₃).foreign p (sha1 d) h.job ?_)
        rw [hj, ← h_eq, h.start]
      refine ⟨h_diff, ?_, .shared h.job ?_ h_unpinned⟩
      · rw [Bool.eq_false_iff, Ne, isDir_iff, kind?_of_names (h_names h_now), h_kind h_now]
        simp
      · rw [kind?_of_names h_moved, kind?_of_names (h_names h_now), h_kind h_now,
          (h₄.keeps.trans h_keeps).node_of_names hj, h_file h₃.inv hj]
  exact h_fresh.mono fun _ s' h_worked => (h₁₂.worked p).trans h_worked

/-- The branch for a content that was missing from the repository. -/
theorem runs_linkToRepo (h : crew.Target i p k d s) (h_missing : s.names (digestPath (sha1 d)) = none) :
    crew.Runs i (fun _ s' => crew.Worked i p s s') (linkToRepo sha1 (crew.tid i) p d) e s := by
  have h_free := h.inv.not_pinned_of_missing h_missing
  -- nobody else can have put this very inode there
  have h_other : ∀ {s₁}, crew.Follows i s s₁ → s₁.names (digestPath (sha1 d)) ≠ some k := by
    intro s₁ h₁ h_eq
    rw [← h.start] at h_eq
    have h_old := h₁.foreign p (sha1 d) h.job h_eq
    rw [h_missing, h.start] at h_old
    cases h_old
  unfold linkToRepo
  rw [repoPath_eq, repoDir_eq]
  refine runs_sys h.inv fun s₁ h₁ => ?_
  by_cases h_dir : s₁.names (digestDir (sha1 d)) = none
  · -- the directory of the repository is made
    have h_keeps : Keeps s₁ ((s₁.alloc (s₁.newInode .dir 0o700)).setName (digestDir (sha1 d)) s₁.next) :=
      (keeps_alloc _).trans (keeps_setName _ _)
    refine ⟨_, _, answer_mkdirat h_dir h₁.inv.top 0o700, ?_⟩
    have h_names : ∀ q, q ≠ digestDir (sha1 d) →
        ((s₁.alloc (s₁.newInode .dir 0o700)).setName (digestDir (sha1 d)) s₁.next).names q
          = s₁.names q := fun q hq => Function.update_of_ne hq _ _
    have h_made : ((s₁.alloc (s₁.newInode .dir 0o700)).setName (digestDir (sha1 d)) s₁.next).isDir
        (digestDir (sha1 d)) := by
      rw [isDir_iff, kind?_eq_some]
      exact ⟨s₁.next, by simp, by simp [newInode]⟩
    generalize (s₁.alloc _).setName (digestDir (sha1 d)) s₁.next = s₂ at h_keeps h_names h_made
    have h_step : crew.Guarantee i s₁ s₂ :=
      .of_touch h_keeps (digestDir_clean _) (.made _ rfl h_dir h_made) fun q _ => h_names q
    have h_worked : crew.Worked i p s₁ s₂ :=
      ⟨h₁.inv.step h_step, h_keeps, fun q hq _ => h_names q (ne_of_root (target_root hq) rfl),
        fun q hq => h_names q (ne_of_clean hq.not_clean (digestDir_clean _)).symm⟩
    have h₂ : crew.Target i p k d s₂ := by
      refine ⟨h_worked.inv, h.job, h.start, h.reg, h.permits, ?_, fun q hq hq' => ?_⟩
      · rw [h_names p (ne_of_root (target_root h.job) rfl), (h.undisturbed h₁).names]
      · rw [h_worked.own q hq, (h.undisturbed h₁).free q hq hq']
    have h_other₂ : s₂.names (digestPath (sha1 d)) ≠ some k := by
      rw [h_names _ (digestPath_ne_digestDir _ _)]
      exact h_other h₁.toFollows
    exact ⟨h_step, (runs_store h₂ h_free h_other₂ h_made).mono fun _ s' h' =>
      ((h₁.worked p).trans h_worked).trans h'⟩
  · -- it is there, perhaps since another thread has made it
    refine ⟨_, _, answer_mkdirat_exists h_dir 0o700, .refl i s₁, runs_getErrno ?_⟩
    rw [errnoAfter_error, if_neg (by simp)]
    have h_store := runs_store (e := .EEXIST) (h.undisturbed h₁) h_free (h_other h₁.toFollows)
      (h₁.inv.dirs _ h_dir)
    exact h_store.mono fun _ s' h' => (h₁.worked p).trans h'

/-- The part with the content read. -/
theorem runs_linkContent (hs : Function.Injective sha1) (h : crew.Target i p k d s) :
    crew.Runs i (fun _ s' => crew.Worked i p s s') (linkContent sha1 (crew.tid i) p d) e s := by
  unfold linkContent
  rw [repoPath_eq]
  refine runs_look h.inv fun s₁ h₁ => ?_
  rcases hr : s₁.names (digestPath (sha1 d)) with _ | r
  · have h_missing : s₁.missing (digestPath (sha1 d)) = .ENOENT := by
      refine missing_of_free_parent ?_
      by_cases h_dir : s₁.names (digestDir (sha1 d)) = none
      · exact Or.inl h_dir
      · exact Or.inr (h₁.inv.dirs _ h_dir)
    refine ⟨_, answer_fstatat_missing hr true, runs_getErrno ?_⟩
    rw [h_missing, errnoAfter_error, if_pos rfl]
    exact (runs_linkToRepo (h.undisturbed h₁) hr).mono fun _ s' h' => (h₁.worked p).trans h'
  · refine ⟨_, answer_fstatat_of_resolve (resolve_nofollow hr), ?_⟩
    exact (runs_share hs (h.undisturbed h₁)).mono fun _ s' h' => (h₁.worked p).trans h'

/-- The content that is read is that of the start, unless the file is too long for one `read`. -/
theorem runs_readFromFile (h : crew.Target i p k d s) :
    crew.Runs i (fun r s' => crew.Undisturbed i s s' ∧ ∀ buf, r = some buf → buf = d)
      (readFromFile p) e s := by
  have h_node : ∀ {s₁}, crew.Undisturbed i s s₁ → s₁.node k = crew.start.node k := fun h₁ =>
    (h.undisturbed h₁).node
  unfold readFromFile
  refine runs_look h.inv fun s₁ h₁ => ?_
  have h_permits : s₁.cred.permits (s₁.node k).attr 2 := by
    rw [h₁.inv.keeps.cred, h_node h₁]
    exact h.permits
  refine ⟨_, answer_openat_rdonly (h.undisturbed h₁).names (h.undisturbed h₁).kind h_permits 0, ?_⟩
  refine runs_seq (P := fun r s' => crew.Undisturbed i s s' ∧ ∀ buf, r = some buf → buf = d) ?_ ?_
  · unfold readOpened
    refine runs_look h₁.inv fun s₂ h₂ => ⟨_, answer_fstat _, ?_⟩
    have h_size : (s₂.stat k).size = d.length := by
      simp [stat, (h.undisturbed (h₁.trans h₂)).kind, Kind.size]
    refine runs_look h₂.inv fun s₃ h₃ => ?_
    have h₁₃ := (h₁.trans h₂).trans h₃
    refine ⟨_, answer_read (h.undisturbed h₁₃).kind (by simp) _, ?_⟩
    refine runs_pure h₃.inv fun s' hs' => ⟨h₁₃.trans hs', fun buf h_buf => ?_⟩
    rw [h_size] at h_buf
    split at h_buf
    · cases h_buf
    · next h_len =>
      obtain rfl := Option.some.inj h_buf
      rw [not_not, List.length_take] at h_len
      exact List.take_of_length_le (by omega)
  · rintro r e' s' ⟨h', h_buf⟩
    refine runs_look h'.inv fun s'' h'' => ⟨_, answer_close _, ?_⟩
    exact runs_pure h''.inv fun t ht => ⟨(h'.trans h'').trans ht, h_buf⟩

/-- The part with the lock held. -/
theorem runs_findOutRepoLocked (hs : Function.Injective sha1) (h : crew.Target i p k d s) :
    crew.Runs i (fun _ s' => crew.Worked i p s s') (findOutRepoLocked sha1 (crew.tid i) p) e s := by
  unfold findOutRepoLocked
  refine runs_seq (runs_readFromFile h) ?_
  rintro r e' s₁ ⟨h₁, h_buf⟩
  cases r with
  | none => exact runs_pure h₁.inv fun s' hs' => (h₁.trans hs').worked p
  | some buf =>
    obtain rfl := h_buf buf rfl
    exact (runs_linkContent hs (h.undisturbed h₁)).mono fun _ s' h' => (h₁.worked p).trans h'

/-- **`FindOutRepoAndMaybeHardlink`**, where the thread has no name of its own at the beginning: it has
none at the end. -/
theorem runs_dedup (hs : Function.Injective sha1) (h : crew.Target i p k d s)
    (h_lock : s.names (lockName p) = none) :
    crew.Runs i (fun _ s' => crew.Worked i p s s')
      (findOutRepoAndMaybeHardlink sha1 (crew.tid i) p) e s := by
  have h_own : crew.Own i (lockName p) := ⟨p, h.job, Or.inl rfl⟩
  unfold findOutRepoAndMaybeHardlink scopedFileLockWithDelete
  refine runs_sysUntilOk h.inv fun s₁ h₁ => ?_
  have h_free : s₁.names (lockName p) = none := by rw [h₁.own _ h_own, h_lock]
  have h_up : s₁.isDir (lockName p).parent := by
    rw [lockName_parent]
    exact (h.undisturbed h₁).parent
  refine ⟨_, _, answer_mkdirat h_free h_up 0o700, ?_⟩
  change crew.Guarantee i s₁ (locked s₁ p) ∧ _
  have h_other : ∀ q, ¬ crew.Own i q → (locked s₁ p).names q = s₁.names q := fun q hq =>
    locked_names_of_ne fun h_eq => hq (h_eq ▸ h_own)
  -- the lock is one of the thread's own names, so that nothing else changes
  have h_follows : crew.Follows i s₁ (locked s₁ p) := follows_own h₁.inv (keeps_locked s₁ p) h_other
  refine ⟨.of_own (keeps_locked s₁ p) h_other, fun e' => ?_⟩
  have h₂ : crew.Target i p k d (locked s₁ p) := by
    have h_now := h.undisturbed h₁
    refine ⟨h_follows.inv, h.job, h.start, h.reg, h.permits, ?_, fun q hq hq' => ?_⟩
    · rw [h_follows.target p h.job, h_now.names]
    · rw [locked_names_of_ne hq', h_now.free q hq hq']
  refine runs_seq (runs_findOutRepoLocked hs h₂) fun b e' s₃ h₃ => ?_
  refine runs_sys h₃.inv fun s₄ h₄ => ?_
  have h₂₄ : crew.Worked i p (locked s₁ p) s₄ := h₃.trans (h₄.worked p)
  have h_dir : s₄.isDir (lockName p) := by
    rw [h₂₄.keeps.isDir (h₂₄.own _ h_own), isDir_iff, kind?_eq_some]
    exact ⟨s₁.next, by simp [locked_names], by simp [locked, newInode]⟩
  -- nobody makes up a name below the lock
  have h_empty : s₄.entriesBelow (lockName p) = ∅ := by
    ext q
    simp only [entriesBelow, Finset.mem_filter, Finset.notMem_empty, iff_false, not_and, not_not]
    intro hq h_below
    by_contra h_ne
    have h_above : ¬ Clean q.parent := fun h_clean =>
      not_below_of_clean (lockName_not_clean p) h_clean (below_parent h_below h_ne)
    have h_none := h₄.inv.reserved q
      (fun h_clean => not_below_of_clean (lockName_not_clean p) h_clean h_below)
      fun j h_j => h_above h_j.parent_clean
    rw [s₄.mem_dom, h_none] at hq
    cases hq
  have h_other' : ∀ q, q ≠ lockName p → (s₄.clearName (lockName p)).names q = s₄.names q := fun q hq =>
    Function.update_of_ne hq _ _
  have h_step : crew.Guarantee i s₄ (s₄.clearName (lockName p)) :=
    .of_own (keeps_clearName _) fun q hq => h_other' q fun h_eq => hq (h_eq ▸ h_own)
  refine ⟨_, _, answer_rmdirat h_dir h_empty, h_step, ?_⟩
  refine runs_pure (h₄.inv.step h_step) fun s₅ h₅ => ?_
  -- behind the call: the invariant, the other targets of the thread, and its own names
  refine ⟨h₅.inv, ?_, ?_, ?_⟩
  · exact h₁.keeps.trans ((keeps_locked s₁ p).trans (h₂₄.keeps.trans (h_step.keeps.trans h₅.keeps)))
  · intro q hq hqp
    rw [h₅.target q hq, h_other' q (ne_of_clean (lockName_not_clean p) (target_clean hq)),
      h₂₄.target q hq hqp, h_follows.target q hq, h₁.target q hq]
  · intro q hq
    rw [h₅.own q hq]
    by_cases h_eq : q = lockName p
    · rw [h_eq, h_lock]
      exact Function.update_self _ _ _
    · rw [h_other' q h_eq, h₂₄.own q hq, locked_names_of_ne h_eq, h₁.own q hq]

end Dedup

/-! ### The jobs of a thread -/

/-- What a thread with the jobs `rest` left finds: they are about files that are as they were, and no
name that it has made up is there. -/
structure Ready (crew : Crew sha1 ι) (i : ι) (rest : List Job) (s : FileSystem Tree) : Prop where
  inv : crew.Inv s
  target : ∀ q, .dedup q ∈ rest → s.names q = crew.start.names q
  own : ∀ q, crew.Own i q → s.names q = none

theorem ready_start (i : ι) : crew.Ready i (crew.jobs i) crew.start :=
  ⟨inv_start, fun _ _ => rfl, fun _ hq => crew.tidy.names_eq_none hq.not_clean⟩

/-- The other jobs of a thread are not concerned by what it does for one. -/
theorem Ready.worked {job : Job} {rest : List Job} (h : crew.Ready i (job :: rest) s)
    (h_jobs : ∀ x ∈ rest, x ∈ crew.jobs i) (h_other : ∀ q, .dedup q ∈ rest → q ≠ p)
    (h' : crew.Worked i p s s') : crew.Ready i rest s' where
  inv := h'.inv
  target q hq := by
    rw [h'.target q (h_jobs _ hq) (h_other q hq), h.target q (List.mem_cons_of_mem _ hq)]
  own q hq := by rw [h'.own q hq, h.own q hq]

theorem runs_job (hs : Function.Injective sha1) {job : Job} {rest : List Job}
    (h : crew.Ready i (job :: rest) s) (h_jobs : ∀ x ∈ job :: rest, x ∈ crew.jobs i)
    (h_once : (job :: rest).Pairwise fun a b =>
      ∀ p q, a = .dedup p → b = .dedup q → crew.start.names p ≠ crew.start.names q) :
    crew.Runs i (fun _ s' => crew.Ready i rest s') (job.run sha1 (crew.tid i)) e s := by
  have h_rest : ∀ x ∈ rest, x ∈ crew.jobs i := fun x hx => h_jobs x (List.mem_cons_of_mem _ hx)
  cases job with
  | collect g =>
    refine (runs_collect h.inv g).mono fun _ s' h' => h.worked h_rest (fun q hq => ?_) h'
    exact ne_of_root (target_root (h_rest _ hq)) rfl
  | dedup p =>
    have h_job : .dedup p ∈ crew.jobs i := h_jobs _ List.mem_cons_self
    obtain ⟨-, -, k, d, hk, h_reg, h_permits⟩ := crew.target i p h_job
    have h_target : crew.Target i p k d s :=
      ⟨h.inv, h_job, hk, h_reg, h_permits, by rw [h.target p List.mem_cons_self, hk],
        fun q hq _ => h.own q hq⟩
    have h_lock := h.own (lockName p) ⟨p, h_job, Or.inl rfl⟩
    refine (runs_dedup hs h_target h_lock).mono fun _ s' h' => h.worked h_rest (fun q hq => ?_) h'
    rintro rfl
    exact (List.pairwise_cons.mp h_once).1 _ hq q q rfl rfl rfl

theorem runs_jobs (hs : Function.Injective sha1) {rest : List Job} (h : crew.Ready i rest s)
    (h_jobs : ∀ x ∈ rest, x ∈ crew.jobs i) (h_once : rest.Pairwise fun a b =>
      ∀ p q, a = .dedup p → b = .dedup q → crew.start.names p ≠ crew.start.names q) :
    crew.Runs i (fun _ s' => crew.Ready i [] s') (runJobs sha1 (crew.tid i) rest) e s := by
  induction rest generalizing e s with
  | nil =>
    refine runs_pure h.inv fun s' hs' => ⟨hs'.inv, fun q hq => ?_, fun q hq => ?_⟩
    · cases hq
    · rw [hs'.own q hq, h.own q hq]
  | cons job rest ih =>
    refine runs_seq (runs_job hs h h_jobs h_once) fun _ e' s' h' => ?_
    exact ih h' (fun x hx => h_jobs x (List.mem_cons_of_mem _ hx)) (List.pairwise_cons.mp h_once).2

/-! ### All threads -/

/-- The thread has returned. -/
def finished (t : Thread (sig Tree) Unit) : Bool :=
  match t.prog with
  | .ret _ => true
  | _ => false

theorem prog_of_finished {t : Thread (sig Tree) Unit} (h : finished t) : t.prog = .ret () := by
  rcases t with ⟨_ | _ | _ | _ | _, e⟩
  · rfl
  all_goals cases h

/-- **Nothing is lost.** At every moment of every schedule the paths of the working directory show what
they showed at the start, and a hash-named file of the repository holds a content of that digest. No
thread aborts, and once all have returned no temporary or lock name is left. -/
theorem lossless [DecidableEq ι] (hs : Function.Injective sha1) (crew : Crew sha1 ι) (err : ι → Errno)
    {c : Pool (sig Tree) ι (FileSystem Tree) Unit}
    (hr : Pool.Reachable (machine Tree) (fun f => f = none) (crew.pool err) c) :
    (∀ p, p.root = .workdir → crew.start.names p ≠ none →
      c.state.names p ≠ none ∧ c.state.kind? p = crew.start.kind? p) ∧
    (∀ g k, c.state.names (digestPath g) = some k →
      ∃ d, (c.state.node k).kind = .reg d ∧ sha1 d = g) ∧
    (∀ i, (c.threads i).prog ≠ .abort) ∧
    ((∀ i, finished (c.threads i)) → Tidy c.state) := by
  have h_rely : ∀ i j, i ≠ j → ∀ s s', crew.Guarantee i s s' → crew.Rely j s s' :=
    fun i _ h_ne _ _ hg => ⟨i, h_ne, hg⟩
  have h_runs : ∀ i, crew.Runs i (fun _ s' => crew.Ready i [] s')
      ((crew.pool err).threads i).prog ((crew.pool err).threads i).err (crew.pool err).state :=
    fun i => runs_jobs hs (ready_start i) (fun _ => id) (crew.once i)
  have h_inv : crew.Inv c.state :=
    hr.invariant Guarantee.refl h_rely h_runs (fun _ _ _ h hg => h.step hg) inv_start
  refine ⟨fun p h_root h_some => ?_, h_inv.files, fun i h_abort => ?_, fun h_done q hq => ?_⟩
  · have h_kind := h_inv.work p h_root (crew.tidy p h_some)
    refine ⟨fun h_none => h_some ?_, h_kind⟩
    rw [← kind?_eq_none, ← h_kind, kind?_eq_none, h_none]
  · have h_safe := hr.safe Guarantee.refl h_rely h_runs i
    rw [h_abort] at h_safe
    exact h_safe
  · by_contra h_clean
    by_cases h_own : ∃ i, crew.Own i q
    · obtain ⟨i, h_own⟩ := h_own
      exact hq ((hr.result Guarantee.refl h_rely h_runs (prog_of_finished (h_done i))).own q h_own)
    · exact hq (h_inv.reserved q h_clean (not_exists.mp h_own))

/-! ### Two files of one content -/

/-- A mount with two files of the content `x`, not known to the repository yet. -/
def twoFiles : FileSystem Tree :=
  (((emptyMount.alloc ⟨.reg [120], ⟨0o644#12, 0, 0, 0, 0, 0, []⟩⟩).setName fileA 2).alloc
    ⟨.reg [120], ⟨0o644#12, 0, 0, 0, 0, 0, []⟩⟩).setName fileB 3

theorem twoFiles_dom : ∀ q ∈ twoFiles.dom,
    (∀ n ∈ q.rel, '.' ∉ n) ∧ (q.root = .repository → q.rel = []) := by
  decide +kernel

theorem twoFiles_digestPath (g : Bytes) : twoFiles.names (digestPath g) = none := by
  by_contra h_some
  have h_nil := (twoFiles_dom _ ((twoFiles.mem_dom _).mpr (Option.isSome_iff_ne_none.mpr h_some))).2 rfl
  cases h_nil

theorem twoFiles_digestDir (g : Bytes) : twoFiles.names (digestDir g) = none := by
  by_contra h_some
  have h_nil := (twoFiles_dom _ ((twoFiles.mem_dom _).mpr (Option.isSome_iff_ne_none.mpr h_some))).2 rfl
  cases h_nil

/-- Two threads that deduplicate and one that collects. -/
inductive Racer where
  | first
  | second
  | collector
  deriving DecidableEq

namespace Racer

def tid : Racer → ℕ
  | first => 1
  | second => 2
  | collector => 3

def jobs : Racer → List Job
  | first => [.dedup fileA]
  | second => [.dedup fileB]
  | collector => [.collect [120]]

end Racer

/-- The threads of the race: none of the jobs is about the file of another one. -/
def race : Crew id Racer where
  start := twoFiles
  tid := Racer.tid
  jobs := Racer.jobs
  tid_injective i j h := by
    cases i <;> cases j <;> first | rfl | cases h
  tidy q hq := clean_of_no_dot
    (twoFiles_dom q ((twoFiles.mem_dom q).mpr (Option.isSome_iff_ne_none.mpr hq))).1
  top := by decide +kernel
  dirs g hg := absurd (twoFiles_digestDir g) hg
  files g k hk := by
    rw [twoFiles_digestPath] at hk
    cases hk
  target := by
    intro i p hp
    cases i with
    | first =>
      obtain rfl : p = fileA := by simpa [Racer.jobs] using hp
      exact ⟨rfl, by decide +kernel, 2, [120], rfl, rfl, rfl⟩
    | second =>
      obtain rfl : p = fileB := by simpa [Racer.jobs] using hp
      exact ⟨rfl, by decide +kernel, 3, [120], rfl, rfl, rfl⟩
    | collector => simp [Racer.jobs] at hp
  apart := by
    have h_ne : twoFiles.names fileA ≠ twoFiles.names fileB := by decide +kernel
    intro i j p q h_ij hp hq
    cases i <;> cases j <;> simp [Racer.jobs] at h_ij hp hq
    · rw [hp, hq]
      exact h_ne
    · rw [hp, hq]
      exact h_ne.symm
  once i := by
    cases i <;> exact List.pairwise_singleton _ _

/-- Sixteen rounds in which the threads take turns. Both find the content missing from the repository,
and the second one replaces the file of the first. -/
def turns : List (Racer × Option Fault) :=
  (List.replicate 16 [(.first, none), (.second, none), (.collector, none)]).flatten

def raced : Pool (sig Tree) Racer (FileSystem Tree) Unit :=
  Pool.play (machine Tree) turns (race.pool fun _ => .ENOENT)

theorem raced_finished (i : Racer) : finished (raced.threads i) := by
  cases i <;> decide +kernel

theorem lossless_raced : raced.state.kind? fileA = some (.reg [120]) ∧
    raced.state.kind? fileB = some (.reg [120]) ∧ Tidy raced.state := by
  have h_turns : ∀ x ∈ turns, x.2 = none := by decide
  have hr : Pool.Reachable (machine Tree) (fun f => f = none) (race.pool fun _ => .ENOENT) raced :=
    Pool.reachable_play h_turns _
  obtain ⟨h_work, -, -, h_tidy⟩ := lossless Function.injective_id race (fun _ => .ENOENT) hr
  refine ⟨?_, ?_, h_tidy raced_finished⟩
  · rw [(h_work fileA rfl (by decide +kernel)).2]
    decide +kernel
  · rw [(h_work fileB rfl (by decide +kernel)).2]
    decide +kernel

end Crew

end GitlstreeFS.Cowfs
