import GitlstreeFS.Cowfs.Guard
import GitlstreeFS.Cowfs.Hardlink
import GitlstreeFS.Cowfs.Serving

/-!
# Deduplication and the attributes of a file

`FindOutRepoAndMaybeHardlink` looks for a repository file of the same content, and puts it in the place of the
file. What is seen at the path from then on are the attributes of the file that was stored first.

`after_findOutRepo` says where the path leads afterwards, on any directory and however the run ends.
-/

namespace GitlstreeFS.Cowfs

open Effect Posix FileSystem

variable {sha1 : Bytes → Bytes} {tid : ℕ} {w w' v : FileSystem Tree} {p q src dst tmp : Path Tree} {i j k : ℕ}
  {d : Bytes} {e : Errno}

/-! ### Runs without faults -/

/-- A run that is known to return. -/
theorem ends_of_wp {α : Type} {A : (c : SysCall Tree) → FileSystem Tree → Except Errno c.Val → Bool}
    {q : Proc Tree α} {Q : Outcome α → Errno → List (Option Fault) → FileSystem Tree → Prop}
    (h : (machine Tree).Wp q e w fun a e' w' => Q (.done a) e' [] w') : (machine Tree).Ends A q e [] w Q := by
  obtain ⟨a, h_done, hQ⟩ := h
  intro _
  rwa [h_done, Machine.run_nil_faults]

/-! ### Where the path leads -/

/-- The path `p` still leads to the inode it led to. -/
structure Stays (w : FileSystem Tree) (p : Path Tree) (w' : FileSystem Tree) : Prop where
  keeps : Keeps w w'
  names : w'.names p = w.names p

theorem Stays.trans (h : Stays w p v) (h' : Stays v p w') : Stays w p w' :=
  ⟨h.keeps.trans h'.keeps, h'.names.trans h.names⟩

/-- A file of the working directory stays while the repository is changed. -/
theorem stays_hardlinkOneFile (h_root : p.root ≠ dst.root) (h_src : src.root ≠ dst.root) (e : Errno) :
    (machine Tree).Ends removesFiles (hardlinkOneFile tid src dst) e [] w fun _ _ _ w' => Stays w p w' := by
  have h_p : p ≠ dst := fun h => h_root (congrArg Path.root h)
  have h_tmp : ∀ {q : Path Tree}, q.root ≠ dst.root → q ≠ tmpName dst "of".toList tid := by
    rintro q h rfl
    exact h (Path.append_root dst _)
  refine ends_hardlinkOneFile (fun _ _ _ => ⟨.refl w, rfl⟩) fun _ e' => ?_
  refine ends_hardlinkFresh rfl (removes_removesFiles _) (h_tmp h_src) (fun _ _ => ⟨.refl w, rfl⟩)
    (fun _ _ _ _ w' h => ⟨h.keeps, h.names_of_ne (h_tmp h_root)⟩) (fun _ _ _ _ _ w' h_keeps h_names => ?_)
    fun _ _ _ _ _ w' h_keeps h_names => ?_
  · exact ⟨h_keeps, by rw [h_names, Function.update_of_ne (h_tmp h_root)]⟩
  · exact ⟨h_keeps, by rw [h_names, Function.update_of_ne h_p, Function.update_of_ne (h_tmp h_root)]⟩

/-- What is not there takes the place of nothing. -/
theorem stays_hardlinkOneFile_missing (h_none : w.names src = none) (h_src : src.root ≠ p.root) (e : Errno) :
    (machine Tree).Ends removesFiles (hardlinkOneFile tid src p) e [] w fun _ _ _ w' => Stays w p w' := by
  have h_tmp : src ≠ tmpName p "of".toList tid := by
    rintro rfl
    exact h_src (Path.append_root p _)
  refine ends_hardlinkOneFile (fun _ _ _ => ⟨.refl w, rfl⟩) fun _ e' => ?_
  refine ends_hardlinkFresh rfl (removes_removesFiles _) h_tmp (fun _ _ => ⟨.refl w, rfl⟩)
    (fun _ _ _ _ w' h => ⟨h.keeps, h.names_of_ne (tmpName_ne p _ tid).symm⟩)
    (fun _ h_lands _ _ _ _ _ _ => absurd h_none h_lands.there)
    fun _ h_lands _ _ _ _ _ _ => absurd h_none h_lands.there

/-- A content new to the repository: the file is linked there and stays. -/
theorem stays_linkToRepo (h_root : p.root = .workdir) (e : Errno) :
    (machine Tree).Ends removesFiles (linkToRepo sha1 tid p d) e [] w fun _ _ _ w' => Stays w p w' := by
  have h_p : p.root ≠ (repoPath sha1 d).root := by rw [h_root, repoPath_root]; decide
  have h_link : ∀ {v e'}, Stays w p v → (machine Tree).Ends removesFiles
      (hardlinkOneFile tid p (repoPath sha1 d)) e' [] v fun _ _ _ w' => Stays w p w' := fun h_stays =>
    (stays_hardlinkOneFile h_p h_p _).mono fun _ _ _ _ h => h_stays.trans h
  unfold linkToRepo
  rcases h_exec : exec w none (.mkdirat (repoDir sha1 d) 0o700) with ⟨x | u, v⟩
  · obtain rfl : v = w := by
      have h_same := exec_error (w := w) none (.mkdirat (repoDir sha1 d) 0o700) x (by rw [h_exec])
      rwa [h_exec] at h_same
    refine ends_sys h_exec fun _ => ends_getErrno (ends_ite (fun _ => ?_) fun _ => ?_)
    · exact ends_pure ⟨.refl v, rfl⟩
    · exact h_link ⟨.refl v, rfl⟩
  · refine ends_sys h_exec fun _ => h_link ?_
    -- the directory was made
    have h_made : answer w (.mkdirat (repoDir sha1 d) 0o700) = (.ok u, v) := h_exec
    have h_eq : w.makeNode (repoDir sha1 d) (w.newInode .dir 0o700) = (.ok u, v) := h_made
    unfold makeNode at h_eq
    split at h_eq
    · cases h_eq
    · cases h_eq
    · obtain rfl := (Prod.mk.inj h_eq).2
      refine ⟨(keeps_alloc _).trans (keeps_setName _ _), ?_⟩
      have h_ne : p ≠ repoDir sha1 d := ne_of_root h_root rfl
      exact Function.update_of_ne h_ne _ _

/-- A content that the repository knows: its file takes the place of `p`, unless a directory has the temporary
name. -/
theorem ends_hardlinkOneFile_repo (h_root : p.root = .workdir) (h_up : w.isDir p.parent = true)
    (hi : w.names p = some i) (hk : (w.node i).kind = .reg d) (hr : w.names (repoPath sha1 d) = some k)
    (h_file : (w.node k).kind = .reg d) (e : Errno) :
    (machine Tree).Ends removesFiles (hardlinkOneFile tid (repoPath sha1 d) p) e [] w fun _ _ _ w' =>
      Keeps w w' ∧ w'.names p = if w.isDir (tmpName p "of".toList tid) then w.names p else some k := by
  -- the temporary name is in the working directory, the file of the repository is not
  have h_src : repoPath sha1 d ≠ tmpName p "of".toList tid := fun h => by
    have h_eq := congrArg Path.root h
    rw [repoPath_root, tmpName, Path.append_root, h_root] at h_eq
    cases h_eq
  have h_p := (tmpName_ne p "of".toList tid).symm
  have h_not_dir : ∀ {q j}, w.names q = some j → (w.node j).kind = .reg d → w.isDir q = false := by
    intro q j hq h_reg
    rw [Bool.eq_false_iff, Ne, isDir_iff, kind?_of_names hq, h_reg]
    simp
  have h_found : ∀ {q j}, w.names q = some j → (w.node j).kind = .reg d → lookedUp w none q = some j := by
    intro q j hq h_reg
    rw [lookedUp, resolve_follow hq (by simp [h_reg])]
    rfl
  refine ends_hardlinkOneFile (fun h_one _ _ => ⟨.refl w, ?_⟩) fun _ e' => ?_
  · -- they are one already
    obtain ⟨j, hj, hj'⟩ := h_one
    obtain rfl : k = j := Option.some.inj ((h_found hr h_file).symm.trans hj)
    obtain rfl : i = k := Option.some.inj ((h_found hi hk).symm.trans hj')
    rw [hi, ite_self]
  have h_missing : w.missing (tmpName p "of".toList tid) = .ENOENT :=
    missing_of_isDir (by rwa [tmpName_parent])
  -- without faults the constructor gives up for a directory only
  have h_refused : Refused w none (tmpName p "of".toList tid) ↔ w.isDir (tmpName p "of".toList tid) = true := by
    unfold Refused
    rw [h_missing]
    simp [faultErrno]
  have h_temp : ¬ Refused w none (tmpName p "of".toList tid) → w.isDir (tmpName p "of".toList tid) = false := by
    intro h
    rw [h_refused] at h
    simpa using h
  have h_left : faultsLeft w [] (repoPath sha1 d) = [] := ite_self _
  rw [h_left]
  refine ends_hardlinkFresh rfl (removes_removesFiles _) h_src (fun h _ => ⟨.refl w, ?_⟩)
    (fun h h_no _ _ w' _ => ?_) (fun h _ h_same _ _ w' h_keeps h_names => ⟨h_keeps, ?_⟩)
    fun h _ _ _ _ w' h_keeps h_names => ⟨h_keeps, ?_⟩
  · rw [if_pos (h_refused.mp h)]
  · -- and nothing else can go wrong
    exact absurd ⟨rfl, rfl, by simp [hr], h_not_dir hr h_file, h_temp h, h_up, .inr (h_not_dir hi hk)⟩ h_no
  · rw [h_temp h, h_names, Function.update_of_ne h_p, ← h_same, hr]
    rfl
  · rw [h_temp h, h_names, Function.update_self, hr]
    rfl

/-! ### The whole function -/

/-- The file `p` with the inode `i` of content `d` gets as far as to be replaced if the repository has a file
of its content. -/
structure Dedups (tid : ℕ) (w : FileSystem Tree) (p : Path Tree) (i : ℕ) (d : Bytes) : Prop where
  lock : Lockable w p
  read : w.cred.permits (w.node i).attr 2
  short : d.length ≤ maxRwCount
  temp : w.isDir (tmpName p "of".toList tid) = false

instance : Decidable (Dedups tid w p i d) :=
  decidable_of_iff (Lockable w p ∧ w.cred.permits (w.node i).attr 2 ∧ d.length ≤ maxRwCount ∧
    w.isDir (tmpName p "of".toList tid) = false)
    ⟨fun h => ⟨h.1, h.2.1, h.2.2.1, h.2.2.2⟩, fun h => ⟨h.lock, h.read, h.short, h.temp⟩⟩

/-- The path `p` leads to the repository file of `d` if there is one and `p` gets as far, and else where it led
before. -/
structure Leads (sha1 : Bytes → Bytes) (tid : ℕ) (w : FileSystem Tree) (p : Path Tree) (i : ℕ) (d : Bytes)
    (w' : FileSystem Tree) : Prop where
  keeps : Keeps w w'
  names : w'.names p = if Dedups tid w p i d then (w.names (repoPath sha1 d)).or (some i) else some i

theorem Leads.stays (h : Leads sha1 tid w p i d v) (h' : Stays v p w') : Leads sha1 tid w p i d w' :=
  ⟨h.keeps.trans h'.keeps, h'.names.trans h.names⟩

/-- With the lock held. -/
theorem ends_findOutRepoLocked (h_files : ∀ j, w.names (repoPath sha1 d) = some j → (w.node j).kind = .reg d)
    (h_root : p.root = .workdir) (hi : w.names p = some i) (hk : (w.node i).kind = .reg d) (h_lock : Lockable w p)
    (e : Errno) :
    (machine Tree).Ends removesFiles (findOutRepoLocked sha1 tid p) e [] (locked w p) fun _ _ _ w' =>
      Leads sha1 tid w p i d w' := by
  have h_keeps := keeps_locked w p
  have hi' : (locked w p).names p = some i := by rw [locked_names_of_ne (lockName_ne p).symm, hi]
  have hk' : ((locked w p).node i).kind = .reg d := by rw [h_keeps.node_of_names hi, hk]
  have hr : (locked w p).names (repoPath sha1 d) = w.names (repoPath sha1 d) :=
    locked_names_of_clean (repoPath_clean d)
  have h_permits : (locked w p).cred.permits ((locked w p).node i).attr 2 = w.cred.permits (w.node i).attr 2 := by
    rw [h_keeps.cred, h_keeps.node_of_names hi]
  -- wherever the function gives up, the target is as it was
  have h_same : ¬ Dedups tid w p i d → Leads sha1 tid w p i d (locked w p) := fun h =>
    ⟨h_keeps, by rw [if_neg h, hi']⟩
  unfold findOutRepoLocked
  by_cases h_read : w.cred.permits (w.node i).attr 2
  swap
  · -- a file that cannot be opened ends the process
    have h_closed : ¬ Openable (locked w p) p := by
      intro h_open
      obtain ⟨j, h_resolve, h_reads, -⟩ := h_open.answer
      rw [resolve_follow hi' (by simp [hk'])] at h_resolve
      obtain rfl := Except.ok.inj h_resolve
      rw [h_permits] at h_reads
      exact h_read h_reads
    obtain ⟨x, h_answer⟩ := answer_of_not_openable h_closed
    unfold readFromFile
    rw [bind_assoc]
    exact ends_sys (by rw [← h_answer]; rfl) fun _ => Machine.ends_abort (h_same fun h => h_read h.read)
  refine ends_bind (ends_of_wp (wp_readFromFile hi' hk' (by rw [h_permits, h_read]) ?_))
  by_cases h_short : d.length ≤ maxRwCount
  -- a content that one `read` does not return is not linked
  swap
  · have h_false : (machine Tree).Ends removesFiles (pure false : Proc Tree Bool) e [] (locked w p)
        fun _ _ _ w' => Leads sha1 tid w p i d w' := ends_pure (h_same fun h => h_short h.short)
    rw [if_neg h_short]
    exact h_false
  rw [if_pos h_short]
  change (machine Tree).Ends removesFiles (linkContent sha1 tid p d) e [] (locked w p)
    fun _ _ _ w' => Leads sha1 tid w p i d w'
  unfold linkContent
  rcases h_repo : w.names (repoPath sha1 d) with _ | k
  · -- new to the repository
    have h_stays : ∀ {w'}, Stays (locked w p) p w' → Leads sha1 tid w p i d w' := fun h =>
      ⟨h_keeps.trans h.keeps, by rw [h.names, hi', h_repo, Option.none_or, ite_self]⟩
    have h_missing : exec (locked w p) ([] : List (Option Fault)).head?.join
        (.fstatat (repoPath sha1 d) true) = _ := answer_fstatat_missing (hr.trans h_repo) true
    refine ends_sys h_missing fun _ => ends_getErrno (ends_ite (fun _ => ?_) fun _ => ?_)
    · exact (stays_linkToRepo h_root _).mono fun _ _ _ _ => h_stays
    · refine (stays_hardlinkOneFile_missing (hr.trans h_repo) ?_ _).mono fun _ _ _ _ => h_stays
      rw [repoPath_root, h_root]
      decide
  · -- known to the repository
    have h_known : exec (locked w p) ([] : List (Option Fault)).head?.join
        (.fstatat (repoPath sha1 d) true) = _ := answer_fstatat_of_resolve (resolve_nofollow (hr.trans h_repo))
    refine ends_sys h_known fun _ => ?_
    have h_temp : (locked w p).isDir (tmpName p "of".toList tid) = w.isDir (tmpName p "of".toList tid) :=
      locked_isDir_tmpName of_mem_tempTags
    have h_up : (locked w p).isDir p.parent = true := locked_isDir_of_isDir h_lock.1 h_lock.2
    have h_file : ((locked w p).node k).kind = .reg d := by rw [h_keeps.node_of_names h_repo, h_files k h_repo]
    -- the file of the repository replaces the target, unless a directory has the temporary name
    refine (ends_hardlinkOneFile_repo h_root h_up hi' hk' (hr.trans h_repo) h_file _).mono ?_
    rintro _ _ _ w' ⟨h_keeps', h_names⟩
    refine ⟨h_keeps.trans h_keeps', ?_⟩
    rw [h_names, h_temp, h_repo, Option.some_or, hi']
    by_cases h_dir : w.isDir (tmpName p "of".toList tid) = true
    · rw [if_pos h_dir, if_neg fun h => by rw [h.temp] at h_dir; cases h_dir]
    · rw [if_neg h_dir, if_pos ⟨h_lock, h_read, h_short, by simpa using h_dir⟩]

/-- **Where `FindOutRepoAndMaybeHardlink` leads**, however it ends. -/
theorem after_findOutRepo (h_files : ∀ j, w.names (repoPath sha1 d) = some j → (w.node j).kind = .reg d)
    (h_root : p.root = .workdir) (hi : w.names p = some i) (hk : (w.node i).kind = .reg d) (e : Errno) :
    Leads sha1 tid w p i d
      ((machine Tree).run (findOutRepoAndMaybeHardlink sha1 tid p) e [] w).state := by
  have h_ends : (machine Tree).Ends removesFiles (findOutRepoAndMaybeHardlink sha1 tid p) e [] w
      fun _ _ _ w' => Leads sha1 tid w p i d w' := by
    unfold findOutRepoAndMaybeHardlink
    refine ends_scopedFileLockWithDelete (fun e' fs' h_retry => ?_) fun e' fs' h_lock h_retry => ?_
    · -- the lock is waited for for ever
      obtain ⟨-, h_taken⟩ | ⟨h_lock, -⟩ := retry_lock w p e
      · rw [h_taken] at h_retry
        cases (Prod.mk.inj h_retry).1
      · exact ⟨.refl w, by rw [if_neg fun h => h_lock h.lock, hi]⟩
    · obtain rfl : fs' = [] := by
        obtain ⟨-, h_taken⟩ | ⟨h_not, -⟩ := retry_lock w p e
        · rw [h_taken] at h_retry
          exact (Prod.mk.inj (Prod.mk.inj (Prod.mk.inj h_retry).2).2).1.symm
        · exact absurd h_lock h_not
      refine (ends_findOutRepoLocked h_files h_root hi hk h_lock e').mono ?_
      rintro (b | _ | _) e'' fs'' v h_v
      · -- giving back the lock leaves the path alone
        intro r v' h_exec _
        obtain ⟨r', v'', h_exec', h_state⟩ := exec_unlock v p fs''.head?.join
        obtain rfl : v' = v'' := (Prod.mk.inj (h_exec.symm.trans h_exec')).2
        refine h_v.stays ?_
        obtain rfl | rfl := h_state
        · exact ⟨.refl _, rfl⟩
        · exact ⟨keeps_clearName _, Function.update_of_ne (lockName_ne p).symm _ _⟩
      · exact h_v
      · exact h_v
  exact h_ends (Machine.meets_nil removesFiles_answer _ _ _)

/-! ### What is seen -/

/-- The attributes that count: all but the times of the last access and of the last change of the inode. -/
structure SameAttr (a a' : Attr) : Prop where
  mode : a'.mode = a.mode
  uid : a'.uid = a.uid
  gid : a'.gid = a.gid
  mtime : a'.mtime = a.mtime

/-- What is seen at `p` is what was seen: the content and the attributes. -/
def SameFile (w : FileSystem Tree) (p : Path Tree) (w' : FileSystem Tree) : Prop :=
  ∃ n n', w.inode? p = some n ∧ w'.inode? p = some n' ∧ n'.kind = n.kind ∧ SameAttr n.attr n'.attr

/-- **Deduplication keeps the attributes** just if the file is not replaced, or by one that has them. -/
theorem sameFile_iff (h_files : ∀ d j, w.names (repoPath sha1 d) = some j → (w.node j).kind = .reg d)
    (h_root : p.root = .workdir) (hi : w.names p = some i) (hk : (w.node i).kind = .reg d) (e : Errno) :
    SameFile w p ((machine Tree).run (findOutRepoAndMaybeHardlink sha1 tid p) e [] w).state ↔
      (Dedups tid w p i d → ∀ k, w.names (repoPath sha1 d) = some k →
        SameAttr (w.node i).attr (w.node k).attr) := by
  have h_leads : Leads sha1 tid w p i d
      ((machine Tree).run (findOutRepoAndMaybeHardlink sha1 tid p) e [] w).state :=
    after_findOutRepo (h_files d) h_root hi hk e
  generalize ((machine Tree).run (findOutRepoAndMaybeHardlink sha1 tid p) e [] w).state = w' at h_leads
  have h_seen : w.inode? p = some (w.node i) := by simp [inode?, hi]
  -- the file that is seen now is one of `w`
  have h_now : ∀ {j q}, w.names q = some j → w'.names p = some j →
      (SameFile w p w' ↔ (w.node j).kind = (w.node i).kind ∧ SameAttr (w.node i).attr (w.node j).attr) := by
    intro j q hq hj
    have h_inode : w'.inode? p = some (w.node j) := by simp [inode?, hj, h_leads.keeps.node_of_names hq]
    constructor
    · rintro ⟨n, n', hn, hn', h_kind, h_attr⟩
      obtain rfl := Option.some.inj (h_seen.symm.trans hn)
      obtain rfl := Option.some.inj (h_inode.symm.trans hn')
      exact ⟨h_kind, h_attr⟩
    · rintro ⟨h_kind, h_attr⟩
      exact ⟨_, _, h_seen, h_inode, h_kind, h_attr⟩
  have h_self : SameAttr (w.node i).attr (w.node i).attr := ⟨rfl, rfl, rfl, rfl⟩
  have h_names := h_leads.names
  by_cases h_dedups : Dedups tid w p i d
  · rw [if_pos h_dedups] at h_names
    rcases h_repo : w.names (repoPath sha1 d) with _ | k
    · rw [h_repo, Option.none_or] at h_names
      rw [h_now hi h_names]
      exact iff_of_true ⟨rfl, h_self⟩ fun _ k hk => (by cases hk)
    · rw [h_repo, Option.some_or] at h_names
      rw [h_now h_repo h_names, h_files d k h_repo, hk]
      constructor
      · rintro ⟨-, h_attr⟩ - k' hk'
        obtain rfl := Option.some.inj hk'
        exact h_attr
      · exact fun h => ⟨rfl, h h_dedups k rfl⟩
  · rw [if_neg h_dedups] at h_names
    rw [h_now hi h_names]
    exact iff_of_true ⟨rfl, h_self⟩ fun h => absurd h h_dedups

/-- A private file of user 7 in the repository, and a public file `a` of user 8 with the same content. -/
def storedBefore : FileSystem Tree :=
  ((((emptyMount.alloc (emptyMount.newInode .dir 0o700)).setName (repoDir id [120]) 2).alloc
    ⟨.reg [120], ⟨0o600#12, 7, 7, 1, 1, 1, []⟩⟩).setName (repoPath id [120]) 3).alloc
      ⟨.reg [120], ⟨0o644#12, 8, 8, 2, 2, 2, []⟩⟩ |>.setName fileA 4

theorem env_storedBefore : Env id storedBefore :=
  .of_dom Function.injective_id rfl (by decide +kernel) (by decide +kernel)

theorem sameFile_iff_storedBefore :
    SameFile storedBefore fileA
        ((machine Tree).run (findOutRepoAndMaybeHardlink id 7 fileA) .EINVAL [] storedBefore).state ↔
      (Dedups 7 storedBefore fileA 4 [120] → ∀ k, storedBefore.names (repoPath id [120]) = some k →
        SameAttr (storedBefore.node 4).attr (storedBefore.node k).attr) :=
  sameFile_iff env_storedBefore.files rfl (by decide +kernel) (by decide +kernel) .EINVAL

/-- The file `a` has become private, and user 7's. -/
theorem not_sameFile_storedBefore :
    ¬ SameFile storedBefore fileA
      ((machine Tree).run (findOutRepoAndMaybeHardlink id 7 fileA) .EINVAL [] storedBefore).state := by
  rintro ⟨n, n', hn, hn', -, h_attr⟩
  have h_before : (storedBefore.inode? fileA).map (fun n => n.attr.uid) = some 8 := by decide +kernel
  have h_after : (((machine Tree).run (findOutRepoAndMaybeHardlink id 7 fileA) .EINVAL []
      storedBefore).state.inode? fileA).map (fun n => n.attr.uid) = some 7 := by decide +kernel
  rw [hn, Option.map_some, Option.some.injEq] at h_before
  rw [hn', Option.map_some, Option.some.injEq, h_attr.uid, h_before] at h_after
  cases h_after

end GitlstreeFS.Cowfs
