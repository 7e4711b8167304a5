import GitlstreeFS.FileUtilSpec
import GitlstreeFS.Cowfs.Handler

/-!
# What the functions of cowfs do on a quiet mount

`Env` is what cowfs finds between two requests if nothing interferes and the system calls
it issues are permitted: no name of the kind it makes up, a repository whose directories
are directories and whose hash-named files hold the content they are named after.

In such a state

* `findOutRepoAndMaybeHardlink` makes a file and the repository file of its content one
  (`Deduped`, `wp_findOutRepoAndMaybeHardlink`);
* `maybeBreakHardlink` leaves a file of link count one alone, and otherwise gives the path
  an inode of its own with the same content and drops the repository file if nothing else
  uses it (`Broken`, `wp_maybeBreakHardlink`).

Both descriptions are about names. No inode of the state changes (`Keeps`).
-/

namespace GitlstreeFS.Cowfs

open Effect Posix FileSystem

variable {sha1 : Bytes → Bytes} {tid : ℕ} {w : FileSystem Tree} {p : Path Tree} {i : ℕ}
  {d : Bytes} {e : Errno}

/-! ### `hardlinkOneFile` -/

section Hardlink

variable {src dst : Path Tree} {Q : Bool → Errno → FileSystem Tree → Prop}

theorem tmpName_ne (p : Path Tree) (opt : Name) (tid : ℕ) : tmpName p opt tid ≠ p :=
  append_ne_self (by simp) p

theorem wp_hardlinkFresh (hs : w.names src = some i) (h_src : w.isDir src = false)
    (h_dst : w.isDir dst = false) (h_ne : w.names dst ≠ some i) (hp : w.isDir dst.parent)
    (ht : w.names (tmpName dst "of".toList tid) = none)
    (hQ : ∀ e' w', Keeps w w' → w'.names = Function.update w.names dst (some i) → Q true e' w') :
    (machine Tree).Wp (hardlinkFresh tid src dst) e w Q := by
  have h_tmp := tmpName_ne dst "of".toList tid
  have h_up := parent_ne_of_free hp ht
  have h_parent : w.isDir (tmpName dst "of".toList tid).parent := by simpa using hp
  unfold hardlinkFresh
  refine wp_scopedTempFile ht hp ?_
  generalize tmpName dst "of".toList tid = tmp at ht h_tmp h_parent h_up
  refine wp_sys (answer_linkat hs h_src ht h_parent) ?_
  -- now `tmp` is one more name of the inode of `src`
  have h_keeps : Keeps w (w.setName tmp i) := keeps_setName tmp i
  have h_names : ∀ q, q ≠ tmp → (w.setName tmp i).names q = w.names q := fun q hq =>
    Function.update_of_ne hq _ _
  have h_tmp_dir : (w.setName tmp i).isDir tmp = false := by
    rw [← h_src, Bool.eq_iff_iff, isDir_iff, isDir_iff, kind?_of_names hs,
      kind?_of_names (i := i) (by simp)]
    rfl
  have h_dst' : (w.setName tmp i).isDir dst = false := by
    rw [h_keeps.isDir (h_names dst h_tmp.symm), h_dst]
  have hp' : (w.setName tmp i).isDir dst.parent := by
    rw [h_keeps.isDir (h_names _ h_up), hp]
  have h_ne' : (w.setName tmp i).names dst ≠ some i := by rwa [h_names dst h_tmp.symm]
  refine wp_sys (answer_renameat2 (i := i) (by simp) h_tmp_dir h_dst' h_ne' hp') (wp_pure ?_)
  exact ⟨rfl, hQ _ _ (h_keeps.trans (keeps_moveName _ _))
    (moveName_names_of_update rfl ht h_tmp)⟩

/-- **`HardlinkOneFile`.** The name `dst` comes to denote the inode of `src`. -/
theorem wp_hardlinkOneFile (hs : w.names src = some i) {s : Bytes}
    (h_src : (w.node i).kind = .reg s)
    (h_dst : ∀ j, w.names dst = some j → ∃ t, (w.node j).kind = .reg t) (hp : w.isDir dst.parent)
    (ht : w.names (tmpName dst "of".toList tid) = none)
    (hQ : ∀ e' w', Keeps w w' → w'.names = Function.update w.names dst (some i) → Q true e' w') :
    (machine Tree).Wp (hardlinkOneFile tid src dst) e w Q := by
  have h_src_dir : w.isDir src = false := by
    rw [Bool.eq_false_iff, Ne, isDir_iff, kind?_of_names hs, h_src]
    simp
  have h_dst_dir : w.isDir dst = false := by
    rw [Bool.eq_false_iff, Ne, isDir_iff, kind?_eq_some]
    rintro ⟨j, hj, h_dir⟩
    obtain ⟨t, ht⟩ := h_dst j hj
    simp [ht] at h_dir
  unfold hardlinkOneFile
  refine wp_sys (answer_fstatat_of_resolve (resolve_follow hs (by simp [h_src]))) ?_
  rcases hj : w.names dst with _ | j
  · refine wp_sys (answer_fstatat_missing hj false) ?_
    exact wp_hardlinkFresh hs h_src_dir h_dst_dir (by simp [hj]) hp ht hQ
  · obtain ⟨t, h_reg⟩ := h_dst j hj
    refine wp_sys (answer_fstatat_of_resolve (resolve_follow hj (by simp [h_reg]))) ?_
    refine wp_ite (fun h_same => ?_) (fun h_diff => ?_)
    · obtain rfl : i = j := h_same
      refine wp_pure (hQ _ _ (.refl w) ?_)
      rw [← hj, Function.update_eq_self]
    · refine wp_hardlinkFresh hs h_src_dir h_dst_dir ?_ hp ht hQ
      rw [hj]
      exact fun h => h_diff (Option.some.inj h).symm

end Hardlink

/-! ### `garbageCollectOneRepoFile` -/

/-- A file without other names is removed, everything else is left as it is. -/
theorem wp_garbageCollectOneRepoFile {r : Path Tree} {Q : Bool → Errno → FileSystem Tree → Prop}
    (h_keep : ∀ e', (∀ k, w.names r = some k → w.stNlink k ≠ 1) → Q true e' w)
    (h_drop : ∀ e' k, w.names r = some k → w.stNlink k = 1 → Q true e' (w.clearName r)) :
    (machine Tree).Wp (garbageCollectOneRepoFile r) e w Q := by
  unfold garbageCollectOneRepoFile
  rcases hk : w.names r with _ | k
  · exact wp_sys (answer_fstatat_missing hk true) (wp_pure (h_keep _ (by simp [hk])))
  · refine wp_sys (answer_fstatat_of_resolve (resolve_nofollow hk)) ?_
    refine wp_ite (fun h_one => ?_) (fun h_more => ?_)
    · have h_dir : w.isDir r = false := by
        rw [Bool.eq_false_iff, Ne, isDir_iff, kind?_of_names hk]
        intro h_dir
        exact absurd h_one (Nat.ne_of_gt (one_lt_stNlink_of_dir hk (Option.some.inj h_dir)))
      exact wp_sys (answer_unlinkat (by simp [hk]) h_dir) (wp_pure (h_drop _ k hk h_one))
    · refine wp_pure (h_keep _ fun j hj => ?_)
      obtain rfl : k = j := Option.some.inj (hk.symm.trans hj)
      exact h_more

/-- The repository file `r` of `w` is still there and has another name, or it is gone and
nothing has its inode. -/
def Collected (w w' : FileSystem Tree) (r : Path Tree) : Prop :=
  (w'.names r = w.names r ∧ ∀ k, w.names r = some k → ∃ q, q ≠ r ∧ w'.names q = some k) ∨
    (w'.names r = none ∧ ∀ k, w.names r = some k → ∀ q, w'.names q ≠ some k)

/-- Collecting the repository file `r` of `w` in a later state `v` that still has it. -/
theorem wp_garbageCollect_collected {v : FileSystem Tree} {r : Path Tree}
    {Q : Bool → Errno → FileSystem Tree → Prop} (h_keeps : Keeps w v)
    (h_names : v.names r = w.names r)
    (h_reg : ∀ k, w.names r = some k → (w.node k).kind ≠ .dir)
    (hQ : ∀ e' w', Keeps v w' → w'.node = v.node → (∀ q, q ≠ r → w'.names q = v.names q) →
      Collected w w' r → Q true e' w') :
    (machine Tree).Wp (garbageCollectOneRepoFile r) e v Q := by
  have h_nlink : ∀ k, w.names r = some k → v.stNlink k = v.nlink k := fun k hk =>
    stNlink_of_not_dir (by rw [h_keeps.node_of_names hk]; exact h_reg k hk)
  refine wp_garbageCollectOneRepoFile (fun e' h_more => ?_) (fun e' k hk h_one => ?_)
  · -- the file stays: it has another name
    refine hQ _ _ (.refl v) rfl (fun _ _ => rfl) (Or.inl ⟨h_names, fun k hk => ?_⟩)
    have hk' : v.names r = some k := by rw [h_names, hk]
    have h_two := h_more k hk'
    rw [h_nlink k hk, Ne, v.nlink_eq_one_iff hk'] at h_two
    push Not at h_two
    obtain ⟨q, hq, h_ne⟩ := h_two
    exact ⟨q, h_ne, hq⟩
  · -- the file goes: it was the only name
    have hk' : w.names r = some k := by rw [← h_names, hk]
    rw [h_nlink k hk', v.nlink_eq_one_iff hk] at h_one
    refine hQ _ _ (keeps_clearName r) rfl (fun q hq => Function.update_of_ne hq _ _)
      (Or.inr ⟨Function.update_self _ _ _, fun k' hk'' q => ?_⟩)
    obtain rfl : k = k' := Option.some.inj (hk'.symm.trans hk'')
    rw [clearName_names]
    by_cases h_q : q = r
    · simp [h_q]
    · rw [Function.update_of_ne h_q]
      exact fun h => h_q (h_one q h)

/-! ### The mount between requests -/

/-- What cowfs finds between requests when nothing else touches the two directories and the
system calls it issues are permitted. -/
structure Env (sha1 : Bytes → Bytes) (w : FileSystem Tree) : Prop where
  /-- No file bears a temporary or a lock name. -/
  tidy : Tidy w
  top : w.isDir ⟨.repository, []⟩
  dirs : ∀ d, w.names (repoDir sha1 d) ≠ none → w.isDir (repoDir sha1 d)
  /-- A repository file holds the content it is named after. -/
  files : ∀ d i, w.names (repoPath sha1 d) = some i → (w.node i).kind = .reg d
  /-- Regular files may be read and written. -/
  access : ∀ p i d, w.names p = some i → (w.node i).kind = .reg d →
    w.cred.permits (w.node i).attr 2 ∧ w.cred.permits (w.node i).attr 1

/-! ### Linking with the repository -/

/-- The file `p` of content `d` and the repository file of `d` have become one: the
repository's if there was one, the one at `p` otherwise. -/
structure Deduped (sha1 : Bytes → Bytes) (w : FileSystem Tree) (p : Path Tree) (d : Bytes)
    (w' : FileSystem Tree) : Prop where
  keeps : Keeps w w'
  target : w'.names p = (w.names (repoPath sha1 d)).or (w.names p)
  repo : w'.names (repoPath sha1 d) = (w.names (repoPath sha1 d)).or (w.names p)
  /-- The directory of the repository file is made if there was none. -/
  dir : w'.names (repoDir sha1 d) = w.names (repoDir sha1 d) ∨
    w.names (repoDir sha1 d) = none ∧ w'.isDir (repoDir sha1 d)
  other : ∀ q, q ≠ p → q ≠ repoPath sha1 d → q ≠ repoDir sha1 d → w'.names q = w.names q

theorem ne_of_root {p q : Path Tree} (hp : p.root = .workdir) (hq : q.root = .repository) :
    p ≠ q := by
  rintro rfl
  simp [hp] at hq

theorem repoPath_ne_repoDir (d d' : Bytes) : repoPath sha1 d ≠ repoDir sha1 d' := by
  intro h
  have h_rel := congrArg Path.rel h
  simp [repoPath, repoDir, Path.child] at h_rel

section Link

variable {Q : Bool → Errno → FileSystem Tree → Prop}

/-- Linking the repository file of a content new to the repository, in the state `v` reached
from `w` by making sure that its directory exists. -/
private theorem wp_link_new {v : FileSystem Tree} (h_root : p.root = .workdir)
    (hi : w.names p = some i) (hk : (w.node i).kind = .reg d)
    (hr : w.names (repoPath sha1 d) = none)
    (ht : w.names (tmpName (repoPath sha1 d) "of".toList tid) = none) (h_keeps : Keeps w v)
    (h_dir : v.isDir (repoDir sha1 d))
    (h_made : v.names (repoDir sha1 d) = w.names (repoDir sha1 d) ∨
      w.names (repoDir sha1 d) = none)
    (h_other : ∀ q, q ≠ repoDir sha1 d → v.names q = w.names q)
    (hQ : ∀ e' w', Deduped sha1 w p d w' → Q true e' w') :
    (machine Tree).Wp (hardlinkOneFile tid p (repoPath sha1 d)) e v Q := by
  have h_p : p ≠ repoDir sha1 d := ne_of_root h_root rfl
  have h_r : repoPath sha1 d ≠ repoDir sha1 d := repoPath_ne_repoDir d d
  have h_tmp : tmpName (repoPath sha1 d) "of".toList tid ≠ repoDir sha1 d :=
    fun h => tmpName_not_clean _ of_mem_tempTags tid (h ▸ repoDir_clean d)
  have hi' : v.names p = some i := by rw [h_other p h_p, hi]
  have hr' : v.names (repoPath sha1 d) = none := by rw [h_other _ h_r, hr]
  refine wp_hardlinkOneFile hi' (by rw [h_keeps.node_of_names hi, hk]) (by simp [hr']) h_dir
    (by rw [h_other _ h_tmp, ht]) fun e' w' h_keeps' h_names => hQ e' w' ?_
  have h_same : ∀ q, q ≠ repoPath sha1 d → w'.names q = v.names q := fun q hq => by
    rw [h_names, Function.update_of_ne hq]
  refine ⟨h_keeps.trans h_keeps', ?_, ?_, ?_, ?_⟩
  · rw [h_same p (ne_of_root h_root rfl), hi', hr, hi, Option.none_or]
  · rw [h_names, Function.update_self, hr, hi, Option.none_or]
  · rcases h_made with h | h
    · exact Or.inl (by rw [h_same _ h_r.symm, h])
    · exact Or.inr ⟨h, by rw [h_keeps'.isDir (h_same _ h_r.symm), h_dir]⟩
  · intro q _ hq hq'
    rw [h_same q hq, h_other q hq']

/-- The part of `findOutRepoAndMaybeHardlink` after the content was read. -/
theorem wp_linkContent (h_root : p.root = .workdir) (hp : w.isDir p.parent)
    (hi : w.names p = some i) (hk : (w.node i).kind = .reg d)
    (h_top : w.isDir ⟨.repository, []⟩)
    (h_dir : w.names (repoDir sha1 d) ≠ none → w.isDir (repoDir sha1 d))
    (h_repo : ∀ k, w.names (repoPath sha1 d) = some k → (w.node k).kind = .reg d)
    (ht : w.names (tmpName p "of".toList tid) = none)
    (ht' : w.names (tmpName (repoPath sha1 d) "of".toList tid) = none)
    (hQ : ∀ e' w', Deduped sha1 w p d w' → Q true e' w') :
    (machine Tree).Wp (linkContent sha1 tid p d) e w Q := by
  have h_pr : p ≠ repoPath sha1 d := ne_of_root h_root rfl
  unfold linkContent
  rcases hr : w.names (repoPath sha1 d) with _ | k
  · -- new to the repository: make its directory, then link the file there
    -- either its directory is missing too, or it is a directory: in both cases the errno is `ENOENT`
    have h_missing : w.missing (repoPath sha1 d) = .ENOENT := by
      refine missing_of_free_parent ?_
      by_cases h : w.names (repoDir sha1 d) = none
      · exact Or.inl h
      · exact Or.inr (h_dir h)
    refine wp_sys (answer_fstatat_missing hr true) (wp_getErrno ?_)
    rw [h_missing, errnoAfter_error, if_pos rfl]
    unfold linkToRepo
    by_cases h : w.names (repoDir sha1 d) = none
    · refine wp_sys (answer_mkdirat h h_top 0o700) ?_
      refine wp_link_new h_root hi hk hr ht' ((keeps_alloc _).trans (keeps_setName _ _)) ?_
        (Or.inr h) (fun q hq => Function.update_of_ne hq _ _) hQ
      rw [isDir_iff, kind?_eq_some]
      exact ⟨w.next, by simp, by simp [newInode]⟩
    · refine wp_sys (answer_mkdirat_exists h 0o700) (wp_getErrno ?_)
      rw [errnoAfter_error, if_neg (by simp)]
      exact wp_link_new h_root hi hk hr ht' (.refl w) (h_dir h) (Or.inl rfl) (fun _ _ => rfl) hQ
  · -- known to the repository: its file replaces the one at `p`
    refine wp_sys (answer_fstatat_of_resolve (resolve_nofollow hr)) ?_
    refine wp_hardlinkOneFile hr (h_repo k hr) (fun j hj => ?_) hp ht
      fun e' w' h_keeps h_names => hQ e' w' ?_
    · obtain rfl : i = j := Option.some.inj (hi.symm.trans hj)
      exact ⟨d, hk⟩
    · have h_same : ∀ q, q ≠ p → w'.names q = w.names q := fun q hq => by
        rw [h_names, Function.update_of_ne hq]
      -- now `p` names the inode of the repository, and nothing else has changed
      refine ⟨h_keeps, ?_, ?_, Or.inl (h_same _ (ne_of_root h_root rfl).symm),
        fun q hq _ _ => h_same q hq⟩
      · rw [h_names, Function.update_self, hr, Option.some_or]
      · rw [h_same _ h_pr.symm, hr, Option.some_or]

/-- Giving the lock back leaves the two files one. -/
theorem Deduped.unlock {v : FileSystem Tree} (h_clean : Clean p)
    (h_lock : w.names (lockName p) = none) (h : Deduped sha1 (locked w p) p d v) :
    Deduped sha1 w p d (v.clearName (lockName p)) := by
  have h_r : Clean (repoPath sha1 d) := repoPath_clean d
  have h_rd : Clean (repoDir sha1 d) := repoDir_clean d
  refine ⟨((keeps_locked w p).trans h.keeps).trans (keeps_clearName _), ?_, ?_, ?_, ?_⟩
  · rw [unlock_names_of_clean h_clean, h.target, locked_names_of_clean h_r,
      locked_names_of_clean h_clean]
  · rw [unlock_names_of_clean h_r, h.repo, locked_names_of_clean h_r,
      locked_names_of_clean h_clean]
  · rw [unlock_names_of_clean h_rd, (keeps_clearName _).isDir (unlock_names_of_clean h_rd)]
    simpa only [locked_names_of_clean h_rd] using h.dir
  · intro q hq hq' hq''
    by_cases h_q : q = lockName p
    · rw [h_q, h_lock]
      exact Function.update_self _ _ _
    · exact (Function.update_of_ne h_q _ _).trans
        ((h.other q hq hq' hq'').trans (locked_names_of_ne h_q))

/-- **`FindOutRepoAndMaybeHardlink`.** A file that can be read whole becomes one with the
repository file of its content; a longer one is left alone. -/
theorem wp_findOutRepoAndMaybeHardlink {Q : Bool → Errno → FileSystem Tree → Prop}
    (hw : Env sha1 w) (h_clean : Clean p) (h_root : p.root = .workdir) (hp : w.isDir p.parent)
    (hi : w.names p = some i) (hk : (w.node i).kind = .reg d)
    (h_short : d.length ≤ maxRwCount → ∀ e' w', Deduped sha1 w p d w' → Q true e' w')
    (h_long : maxRwCount < d.length → ∀ e' w', Keeps w w' → w'.names = w.names → Q false e' w') :
    (machine Tree).Wp (findOutRepoAndMaybeHardlink sha1 tid p) e w Q := by
  have h_lock := hw.tidy.names_lockName p
  have h_keeps := keeps_locked w p
  have h_parent : Clean p.parent := fun n hn => h_clean n (List.mem_of_mem_tail hn)
  have h_node := h_keeps.node_of_names hi
  have h_tmp : ∀ q, (locked w p).names (tmpName q "of".toList tid) = none := fun q => by
    rw [locked_names_of_ne (lockName_ne_tmpName p q of_mem_tempTags tid).symm]
    exact hw.tidy.names_tmpName q of_mem_tempTags tid
  have hi' : (locked w p).names p = some i := by rw [locked_names_of_clean h_clean, hi]
  refine wp_scopedFileLockWithDelete h_lock hp ?_
    (fun q => hw.tidy.names_below (lockName_not_clean p))
  unfold findOutRepoLocked
  refine wp_seq (wp_readFromFile hi' (by rw [h_node, hk]) ?_ ?_)
  · rw [h_keeps.cred, h_node]
    exact (hw.access p i d hi hk).1
  · by_cases h_len : d.length ≤ maxRwCount
    · rw [if_pos h_len]
      have h_repo : ∀ k, (locked w p).names (repoPath sha1 d) = some k →
          ((locked w p).node k).kind = .reg d := by
        intro k hr
        rw [locked_names_of_clean (repoPath_clean d)] at hr
        rw [h_keeps.node_of_names hr, hw.files d k hr]
      refine wp_linkContent h_root (by rw [locked_isDir h_parent, hp]) hi' (by rw [h_node, hk])
        (by rw [locked_isDir (by simp [Clean]), hw.top]) ?_ h_repo (h_tmp p) (h_tmp _) ?_
      · rw [locked_names_of_clean (repoDir_clean d), locked_isDir (repoDir_clean d)]
        exact hw.dirs d
      · intro e' w' h
        -- what is behind the lock directory has not been touched, so that it can be removed
        refine ⟨h.keeps, fun q hq => ?_, h_short h_len e' _ (h.unlock h_clean h_lock)⟩
        refine h.other q ?_ ?_ ?_
        · exact fun h_eq => not_below_of_clean (lockName_not_clean p) (h_eq ▸ h_clean) hq
        · exact fun h_eq => not_below_of_clean (lockName_not_clean p) (h_eq ▸ repoPath_clean d) hq
        · exact fun h_eq => not_below_of_clean (lockName_not_clean p) (h_eq ▸ repoDir_clean d) hq
    · rw [if_neg h_len]
      -- one `read` does not return all of it
      refine wp_pure ⟨.refl _, fun _ _ => rfl, h_long (by omega) _ _
        (h_keeps.trans (keeps_clearName _)) (unlock_locked_names h_lock rfl)⟩

end Link

/-! ### Breaking a link -/

/-- The path `p`, which denoted the inode `i` of content `d`, has an inode of its own now,
with the same content and permissions. The repository file of `d` is gone if it has no
other name left. -/
structure Broken (sha1 : Bytes → Bytes) (w : FileSystem Tree) (p : Path Tree) (i : ℕ) (d : Bytes)
    (w' : FileSystem Tree) : Prop where
  keeps : Keeps w w'
  fresh : ∃ j, w'.names p = some j ∧ w.next ≤ j ∧ (w'.node j).kind = .reg d ∧
    ∀ bit < 3, w.cred.permits (w'.node j).attr bit = w.cred.permits (w.node i).attr bit
  other : ∀ q, q ≠ p → q ≠ repoPath sha1 d → w'.names q = w.names q
  repo : Collected w w' (repoPath sha1 d)

section Break

variable {v : FileSystem Tree}

theorem Broken.unlock (h_clean : Clean p) (h_lock : w.names (lockName p) = none)
    (hi : w.names p = some i) (h : Broken sha1 (locked w p) p i d v) :
    Broken sha1 w p i d (v.clearName (lockName p)) := by
  have h_r : Clean (repoPath sha1 d) := repoPath_clean d
  have h_keeps := keeps_locked w p
  have h_held : v.names (lockName p) = some w.next := by
    rw [h.other _ (ne_of_clean (lockName_not_clean p) h_clean).symm
      (ne_of_clean (lockName_not_clean p) h_r).symm, locked_names, Function.update_self]
  refine ⟨(h_keeps.trans h.keeps).trans (keeps_clearName _), ?_, ?_, ?_⟩
  · -- the new inode is newer than the lock and has its bits from the old one
    obtain ⟨j, hj, h_next, h_kind, h_perm⟩ := h.fresh
    refine ⟨j, by rw [unlock_names_of_clean h_clean, hj], h_keeps.next.trans h_next, h_kind, ?_⟩
    intro bit hb
    rw [← h_keeps.node_of_names hi, ← h_keeps.cred]
    exact h_perm bit hb
  · intro q hq hq'
    -- the name of the lock is free again
    by_cases h_q : q = lockName p
    · rw [h_q, h_lock]
      exact Function.update_self _ _ _
    · exact (Function.update_of_ne h_q _ _).trans ((h.other q hq hq').trans (locked_names_of_ne h_q))
  · have h_repo : (locked w p).names (repoPath sha1 d) = w.names (repoPath sha1 d) :=
      locked_names_of_clean h_r
    unfold Collected
    rw [unlock_names_of_clean h_r, ← h_repo]
    refine h.repo.imp (And.imp_right fun h_other k hk => ?_) (And.imp_right fun h_none k hk q => ?_)
    · obtain ⟨q, hq, hqk⟩ := h_other k hk
      refine ⟨q, hq, (Function.update_of_ne ?_ _ _).trans hqk⟩
      -- the other name is not the lock, whose inode is younger
      rintro rfl
      rw [h_repo] at hk
      have h_lt := w.names_lt _ k hk
      rw [h_held, Option.some.injEq] at hqk
      omega
    · rw [clearName_names]
      by_cases h_q : q = lockName p
      · simp [h_q]
      · rw [Function.update_of_ne h_q]
        exact h_none k hk q

/-- `MaybeGcAfterHardlinkBreakForTarget`, in the state `v` in which `p` has been given the
new inode `j`. -/
theorem wp_maybeGcAfterHardlinkBreakForTarget {Q : Bool → Errno → FileSystem Tree → Prop} {j : ℕ}
    (h_root : p.root = .workdir) (h_next : w.next ≤ j) (h_keeps : Keeps w v)
    (h_names : v.names = Function.update w.names p (some j)) (h_kind : (v.node j).kind = .reg d)
    (h_len : d.length ≤ maxRwCount)
    (h_repo : ∀ k, w.names (repoPath sha1 d) = some k → (w.node k).kind = .reg d)
    (h_perm : ∀ bit < 3, w.cred.permits (v.node j).attr bit = w.cred.permits (w.node i).attr bit)
    (h_read : w.cred.permits (w.node i).attr 2)
    (hQ : ∀ e' w', Broken sha1 w p i d w' → Q true e' w') :
    (machine Tree).Wp (maybeGcAfterHardlinkBreakForTarget sha1 p) e v Q := by
  have h_rp : repoPath sha1 d ≠ p := (ne_of_root h_root rfl).symm
  have hj : v.names p = some j := by rw [h_names, Function.update_self]
  have h_same : ∀ q, q ≠ p → v.names q = w.names q := fun q hq => by
    rw [h_names, Function.update_of_ne hq]
  unfold maybeGcAfterHardlinkBreakForTarget getRepoItemPath
  refine wp_seq (wp_seq (wp_readFromFile hj h_kind ?_ ?_))
  · rw [h_keeps.cred, h_perm 2 (by omega), h_read]
  rw [if_pos h_len]
  refine wp_pure (wp_garbageCollect_collected h_keeps (h_same _ h_rp)
    (fun k hk => by rw [h_repo k hk]; simp) fun e' w' h_keeps' h_node h_other h_repo' => ?_)
  have hj' : w'.names p = some j := (h_other p h_rp.symm).trans hj
  refine hQ _ _ ⟨h_keeps.trans h_keeps', ⟨j, hj', h_next, by rw [h_node, h_kind], ?_⟩,
    fun q hq hq' => (h_other q hq').trans (h_same q hq), h_repo'⟩
  rw [h_node]
  exact h_perm

/-- The file at `p` is copied to `toTmp`, which then replaces it. -/
theorem wp_breakCopied {toTmp : Path Tree} {Q : (Bool × Bool) × Bool → Errno → FileSystem Tree → Prop}
    (h_root : p.root = .workdir) (hp : w.isDir p.parent) (hi : w.names p = some i)
    (hk : (w.node i).kind = .reg d) (h_len : d.length ≤ maxRwCount)
    (h_read : w.cred.permits (w.node i).attr 2)
    (h_repo : ∀ k, w.names (repoPath sha1 d) = some k → (w.node k).kind = .reg d)
    (ht : w.names toTmp = none) (ht' : w.isDir toTmp.parent) (h_ne : toTmp ≠ p)
    (hQ : ∀ e' w', Broken sha1 w p i d w' → Q ((true, false), false) e' w') :
    (machine Tree).Wp (breakCopied sha1 p ⟨i, .rdonly, false⟩ (w.stat i) toTmp) e w Q := by
  have h_lt := w.names_lt p i hi
  unfold breakCopied
  refine wp_seq (wp_fileCopyInternal (f := ⟨i, .rdonly, false⟩) hk (by simp) h_lt h_len ht ht'
    fun v a h_created h_perm => ?_)
  rw [if_pos rfl]
  -- the copy has made nothing but `toTmp`
  have h_same : ∀ q, q ≠ toTmp → v.names q = w.names q := fun q hq => by
    rw [h_created.names, Function.update_of_ne hq]
  -- the conditions of the `renameat2`: neither is a directory, and they are two inodes
  have h_not_dir : v.isDir toTmp = false := by
    rw [Bool.eq_false_iff, Ne, isDir_iff, kind?_of_names (i := w.next) (by simp [h_created.names]),
      h_created.node]
    simp
  have h_target : v.isDir p = false := by
    rw [h_created.keeps.isDir (h_same p h_ne.symm), Bool.eq_false_iff, Ne, isDir_iff,
      kind?_of_names hi, hk]
    simp
  have h_parent : v.isDir p.parent := by
    rw [h_created.keeps.isDir (h_same _ (parent_ne_of_free hp ht)), hp]
  refine wp_sys (answer_close _) (wp_sys (answer_renameat2 (i := w.next) (by simp [h_created.names])
    h_not_dir h_target ?_ h_parent) ?_)
  · rw [h_same p h_ne.symm, hi, Ne, Option.some.injEq]
    omega
  · -- what the file was a link to may be unused now
    refine wp_seq (wp_maybeGcAfterHardlinkBreakForTarget h_root (le_refl w.next)
      (h_created.keeps.trans (keeps_moveName _ _)) (moveName_names_of_update h_created.names ht h_ne)
      (by rw [moveName_node, h_created.node]) h_len h_repo ?_ h_read
      fun e' w' h => wp_pure (hQ e' w' h))
    intro bit hb
    rw [moveName_node, h_created.node]
    exact h_perm w.cred bit hb

/-- What `maybeBreakHardlink` makes of a state: `p` has no second name now. -/
inductive Unshared (sha1 : Bytes → Bytes) (w : FileSystem Tree) (p : Path Tree)
    (w' : FileSystem Tree) : Prop
  /-- There was no second name. -/
  | same (h_one : ∀ i, w.names p = some i → w.nlink i = 1) (h_keeps : Keeps w w')
      (h_names : w'.names = w.names)
  /-- The link was broken. -/
  | broken (i : ℕ) (d : Bytes) (hi : w.names p = some i) (hk : (w.node i).kind = .reg d)
      (h_many : w.nlink i ≠ 1) (h : Broken sha1 w p i d w')

/-- **`MaybeBreakHardlink`.** A file that does not exist or has no other name is left alone;
a regular file with other names gets an inode of its own. -/
theorem wp_maybeBreakHardlink {Q : Bool → Errno → FileSystem Tree → Prop}
    (hw : Env sha1 w) (h_clean : Clean p) (h_root : p.root = .workdir) (hp : w.isDir p.parent)
    (h_reg : ∀ i, w.names p = some i → ∃ d, (w.node i).kind = .reg d ∧
      (w.nlink i = 1 ∨ d.length ≤ maxRwCount))
    (hQ : ∀ e' w', Unshared sha1 w p w' → Q true e' w') :
    (machine Tree).Wp (maybeBreakHardlink sha1 tid p) e w Q := by
  have h_lock := hw.tidy.names_lockName p
  have h_keeps := keeps_locked w p
  have h_parent : Clean p.parent := fun n hn => h_clean n (List.mem_of_mem_tail hn)
  have h_below : ∀ q, Path.Below (lockName p) q → w.names q = none := fun q =>
    hw.tidy.names_below (lockName_not_clean p)
  unfold maybeBreakHardlink
  rcases hi : w.names p with _ | i
  · -- no such file
    refine wp_sys (answer_openat_missing hi rfl 0) (wp_seq ?_)
    rw [missing_of_isDir hp, errnoAfter_error]
    refine wp_scopedFileLockWithDelete h_lock hp ?_ h_below
    unfold breakLocked
    refine wp_getErrno (wp_pure ⟨.refl _, fun _ _ => rfl, wp_pure ?_⟩)
    exact hQ _ _ (.same (by simp [hi]) (h_keeps.trans (keeps_clearName _))
      (unlock_locked_names h_lock rfl))
  · obtain ⟨d, hk, h_len⟩ := h_reg i hi
    have h_read := (hw.access p i d hi hk).1
    have hi' : (locked w p).names p = some i := by rw [locked_names_of_clean h_clean, hi]
    have h_node := h_keeps.node_of_names hi
    have hk' : ((locked w p).node i).kind = .reg d := by rw [h_node, hk]
    -- the lock directory is another inode, so it adds no link to the target
    have h_nlink : ((locked w p).stat i).nlink = w.nlink i := by
      rw [stat_nlink, stNlink_of_not_dir (by simp [hk'])]
      refine nlink_congr fun q => ?_
      by_cases hq : q = lockName p
      · have h_lt := w.names_lt p i hi
        subst hq
        rw [locked_names, Function.update_self, h_lock]
        simp only [Option.some.injEq, reduceCtorEq, iff_false]
        omega
      · rw [locked_names_of_ne hq]
    refine wp_sys (answer_openat_rdonly hi hk h_read 0) (wp_seq ?_)
    refine wp_scopedFileLockWithDelete h_lock hp ?_ h_below
    unfold breakLocked breakOpened
    refine wp_sys (answer_fstat _) ?_
    dsimp only
    rw [h_nlink]
    refine wp_ite (fun h_zero => ?_) (fun _ => wp_ite (fun h_one => ?_) (fun h_many => ?_))
    · -- the file has a name, so the check for no link at all is passed
      exact absurd h_zero (w.nlink_pos hi).ne'
    · -- the target has this one name: nothing to do
      refine wp_pure ⟨.refl _, fun _ _ => rfl, wp_sys (answer_close _) (wp_pure ?_)⟩
      refine hQ _ _ (.same (fun j hj => ?_) (h_keeps.trans (keeps_clearName _))
        (unlock_locked_names h_lock rfl))
      rw [← Option.some.inj (hi.symm.trans hj), h_one]
    · -- it has others: the copy replaces it before the lock is given back
      have h_tmp : (locked w p).names (tmpName p "mb".toList tid) = none := by
        rw [locked_names_of_ne (lockName_ne_tmpName p p mb_mem_tempTags tid).symm]
        exact hw.tidy.names_tmpName p mb_mem_tempTags tid
      have hp' : (locked w p).isDir p.parent := by rw [locked_isDir h_parent, hp]
      refine wp_scopedTempFile h_tmp hp' (wp_breakCopied h_root hp' hi' hk'
        (h_len.resolve_left h_many) ?_ ?_ h_tmp (by simpa using hp') (tmpName_ne p _ _) ?_)
      · rw [h_keeps.cred, h_node, h_read]
      · intro k hr
        rw [locked_names_of_clean (repoPath_clean d)] at hr
        rw [h_keeps.node_of_names hr, hw.files d k hr]
      · intro e' w' h
        -- nothing below the lock directory was made, so it can be removed
        refine ⟨rfl, h.keeps, fun q hq => ?_, wp_pure (hQ e' _
          (.broken i d hi hk h_many (h.unlock h_clean h_lock hi)))⟩
        refine h.other q ?_ ?_
        · exact fun h_eq => not_below_of_clean (lockName_not_clean p) (h_eq ▸ h_clean) hq
        · exact fun h_eq => not_below_of_clean (lockName_not_clean p) (h_eq ▸ repoPath_clean d) hq

end Break

/-! ### Unlinking -/

/-- The file `p` of content `d` is gone, and so is the repository file of `d` if it has no
other name left. -/
structure Unlinked (sha1 : Bytes → Bytes) (w : FileSystem Tree) (p : Path Tree) (d : Bytes)
    (w' : FileSystem Tree) : Prop where
  keeps : Keeps w w'
  target : w'.names p = none
  other : ∀ q, q ≠ p → q ≠ repoPath sha1 d → w'.names q = w.names q
  repo : Collected w w' (repoPath sha1 d)

/-- **`CowFileSystemHandler::Unlink`** of a regular file that can be read whole. -/
theorem wp_unlink {Q : Except Errno Unit → Errno → FileSystem Tree → Prop} (hw : Env sha1 w)
    (h_root : p.root = .workdir) (hi : w.names p = some i) (hk : (w.node i).kind = .reg d)
    (h_len : d.length ≤ maxRwCount) (hQ : ∀ e' w', Unlinked sha1 w p d w' → Q (.ok ()) e' w') :
    (machine Tree).Wp (unlink sha1 p) e w Q := by
  have h_pr : p ≠ repoPath sha1 d := ne_of_root h_root rfl
  have h_not_dir : w.isDir p = false := by
    rw [Bool.eq_false_iff, Ne, isDir_iff, kind?_of_names hi, hk]
    simp
  unfold unlink getRepoItemPath
  refine wp_seq (wp_seq (wp_readFromFile hi hk (hw.access p i d hi hk).1 ?_))
  rw [if_pos h_len]
  refine wp_pure (wp_sys (answer_unlinkat (by simp [hi]) h_not_dir) (wp_seq ?_))
  refine wp_garbageCollect_collected (keeps_clearName p) (Function.update_of_ne h_pr.symm _ _)
    (fun k hk => by rw [hw.files d k hk]; simp) fun e' w' h_keeps _ h_other h_repo => wp_pure ?_
  refine hQ _ _ ⟨(keeps_clearName p).trans h_keeps, ?_, fun q hq hq' => ?_, h_repo⟩
  · rw [h_other p h_pr, clearName_names, Function.update_self]
  · rw [h_other q hq', clearName_names, Function.update_of_ne hq]

end GitlstreeFS.Cowfs
