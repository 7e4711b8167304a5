import GitlstreeFS.Cowfs.Hardlink
import GitlstreeFS.Cowfs.Startup

/-!
# From the start of the program to the mount

Before it mounts, the program goes through the repository and removes the files that no directory uses any more
(`gcTree`), and then deduplicates the underlying directory (`HardlinkTree`). `GcTree` does not look at what the
walk returns, nor does it stop where an `unlink` fails.

`Unlinks` is what a `gcTree` may do, whatever fails in it. So the jobs of `HardlinkTree` find the directory as
it was, and the tasks of `Startup` are the files that had one name before.
-/

namespace GitlstreeFS.Cowfs

open Effect Posix FileSystem Startup

/-! ### `GcTree` -/

/-- What the callback of `GcTree` keeps of a walk: `FTS_F` and `st_nlink == 1`. -/
def toDelete (w : FileSystem Tree) (walk : List (Path Tree)) : List (Path Tree) :=
  walk.filter (singleFile w)

/-- The loop of `GcTree`. What `unlink` returns decides what is printed, and nothing else. -/
def unlinkEach : List (Path Tree) → Proc Tree Unit
  | [] => pure ()
  | s :: paths => do
    let _ ← sys (.unlinkat s)
    unlinkEach paths

/-- `GcTree`, for a walk over the repository. -/
def gcTree (w : FileSystem Tree) (walk : List (Path Tree)) : Proc Tree Unit :=
  unlinkEach (toDelete w walk)

variable {w w' w'' v : FileSystem Tree} {paths paths' walk : List (Path Tree)} {p q : Path Tree} {k : ℕ}

/-- Names of `paths` may be gone, and nothing else has changed. -/
structure Unlinks (paths : List (Path Tree)) (w w' : FileSystem Tree) : Prop where
  keeps : Keeps w w'
  node : w'.node = w.node
  names : ∀ q, w'.names q = w.names q ∨ w'.names q = none ∧ q ∈ paths

theorem Unlinks.refl (paths : List (Path Tree)) (w : FileSystem Tree) : Unlinks paths w w :=
  ⟨.refl w, rfl, fun _ => .inl rfl⟩

theorem Unlinks.trans (h : Unlinks paths w w') (h' : Unlinks paths' w' w'') :
    Unlinks (paths ++ paths') w w'' := by
  refine ⟨h.keeps.trans h'.keeps, h'.node.trans h.node, fun q => ?_⟩
  obtain h_eq | ⟨h_none, hq⟩ := h'.names q
  · rw [h_eq]
    exact (h.names q).imp_right fun h_gone => ⟨h_gone.1, List.mem_append_left _ h_gone.2⟩
  · exact .inr ⟨h_none, List.mem_append_right _ hq⟩

/-- A name that is there was there. -/
theorem Unlinks.names_of_some (h : Unlinks paths w w') (hq : w'.names q = some k) : w.names q = some k := by
  obtain h_eq | ⟨h_none, -⟩ := h.names q
  · rw [← h_eq, hq]
  · rw [h_none] at hq
    cases hq

/-- A name that is no longer there stays away. -/
theorem Unlinks.names_of_none (h : Unlinks paths w w') (hq : w.names q = none) : w'.names q = none := by
  obtain h_eq | ⟨h_none, -⟩ := h.names q
  · rw [h_eq, hq]
  · exact h_none

theorem Unlinks.isDir (h : Unlinks paths w w') (hq : w.isDir q = false) : w'.isDir q = false := by
  rw [Bool.eq_false_iff, Ne, isDir_iff, kind?_eq_some] at hq ⊢
  rintro ⟨k, hk, h_dir⟩
  exact hq ⟨k, h.names_of_some hk, h.node ▸ h_dir⟩

/-- **One `unlink`**, with any fault. -/
theorem unlinks_exec (w : FileSystem Tree) (f : Option Fault) (p : Path Tree) :
    Unlinks [p] w (exec w f (.unlinkat p)).2 := by
  obtain ⟨x, h_eq, -⟩ | ⟨-, -, h_eq⟩ := exec_unlinkat_cases w f p
  · rw [h_eq]
    exact .refl _ w
  · rw [h_eq]
    refine ⟨keeps_clearName p, rfl, fun q => ?_⟩
    by_cases hq : q = p
    · subst hq
      exact .inr ⟨Function.update_self _ _ _, List.mem_singleton_self q⟩
    · exact .inl (Function.update_of_ne hq _ _)

/-- **The loop of `GcTree`** comes to its end, whatever fails. -/
theorem run_unlinkEach (paths : List (Path Tree)) (e : Errno) (faults : List (Option Fault))
    (w : FileSystem Tree) :
    ((machine Tree).run (unlinkEach paths) e faults w).outcome = .done () ∧
      Unlinks paths w ((machine Tree).run (unlinkEach paths) e faults w).state := by
  induction paths generalizing e faults w with
  | nil => exact ⟨rfl, .refl [] w⟩
  | cons p paths ih =>
    have h_step := unlinks_exec w faults.head?.join p
    obtain ⟨h_done, h_rest⟩ := ih (errnoAfter e (exec w faults.head?.join (.unlinkat p)).1) faults.tail
      (exec w faults.head?.join (.unlinkat p)).2
    exact ⟨h_done, h_step.trans h_rest⟩

/-- Where no call fails, all the names are gone. -/
theorem run_unlinkEach_nil (h : ∀ p ∈ paths, w.isDir p = false) (e : Errno) :
    ∀ p ∈ paths, ((machine Tree).run (unlinkEach paths) e [] w).state.names p = none := by
  induction paths generalizing e w with
  | nil => exact fun p hp => absurd hp List.not_mem_nil
  | cons p paths ih =>
    have h_first : (answer w (.unlinkat p)).2.names p = none := by
      by_cases hp : w.names p = none
      · rw [answer_unlinkat_missing hp]
        exact hp
      · rw [answer_unlinkat hp (h p List.mem_cons_self)]
        exact Function.update_self _ _ _
    have h_step : Unlinks [p] w (answer w (.unlinkat p)).2 := unlinks_exec w none p
    have h_dir : ∀ q ∈ paths, (answer w (.unlinkat p)).2.isDir q = false := fun q hq =>
      h_step.isDir (h q (List.mem_cons_of_mem p hq))
    have h_rest := run_unlinkEach paths (errnoAfter e (answer w (.unlinkat p)).1) []
      (answer w (.unlinkat p)).2
    refine List.forall_mem_cons.mpr ⟨?_, ih h_dir _⟩
    exact h_rest.2.names_of_none h_first

/-- **What `GcTree` does**, whatever fails. -/
theorem run_gcTree (w : FileSystem Tree) (walk : List (Path Tree)) (e : Errno) (faults : List (Option Fault)) :
    ((machine Tree).run (gcTree w walk) e faults w).outcome = .done () ∧
      Unlinks (toDelete w walk) w ((machine Tree).run (gcTree w walk) e faults w).state :=
  run_unlinkEach (toDelete w walk) e faults w

/-! ### What is left of the repository -/

theorem singleFile_iff :
    singleFile w p = true ↔ ∃ k d, w.names p = some k ∧ (w.node k).kind = .reg d ∧ w.nlink k = 1 := by
  refine ⟨exists_of_singleFile, ?_⟩
  rintro ⟨k, d, hk, h_reg, h_one⟩
  simp [singleFile, hk, h_reg, h_one]

theorem mem_toDelete : p ∈ toDelete w walk ↔ p ∈ walk ∧ singleFile w p = true :=
  List.mem_filter

/-- A file that is left has all the names that it had. -/
theorem Unlinks.names_iff (h : Unlinks (toDelete w walk) w v) (hp : v.names p = some k) (q : Path Tree) :
    v.names q = some k ↔ w.names q = some k := by
  refine ⟨h.names_of_some, fun hq => ?_⟩
  obtain h_eq | ⟨-, h_mem⟩ := h.names q
  · rw [h_eq, hq]
  · -- if it had only one, this is the one that is left
    obtain ⟨k', d, hk', -, h_one⟩ := exists_of_singleFile (mem_toDelete.mp h_mem).2
    obtain rfl := Option.some.inj (hq.symm.trans hk')
    obtain rfl := (w.nlink_eq_one_iff hq).mp h_one p (h.names_of_some hp)
    exact hp

/-- So it is a task for `HardlinkTree` if it was one. -/
theorem Unlinks.singleFile_eq (h : Unlinks (toDelete w walk) w v) (hp : v.names p = w.names p) :
    singleFile v p = singleFile w p := by
  rw [Bool.eq_iff_iff, singleFile_iff, singleFile_iff, hp, h.node]
  refine exists_congr fun k => exists_congr fun d => and_congr_right fun hk => and_congr_right fun _ => ?_
  rw [nlink_congr (h.names_iff (hp.trans hk))]

/-- **What `GcTree` leaves is in use**: where no call fails, and the walk has come to every file of the
repository. -/
theorem shared_of_gcTree {e : Errno} (hv : v = ((machine Tree).run (gcTree w walk) e [] w).state)
    (h_walk : ∀ p k d, p.root = .repository → w.names p = some k → (w.node k).kind = .reg d → p ∈ walk)
    {d : Bytes} (h_root : p.root = .repository) (hp : v.names p = some k) (h_reg : (v.node k).kind = .reg d) :
    ∃ q, q ≠ p ∧ v.names q = some k := by
  have h_unlinks : Unlinks (toDelete w walk) w v := hv ▸ (run_gcTree w walk e []).2
  have hw : w.names p = some k := h_unlinks.names_of_some hp
  rw [h_unlinks.node] at h_reg
  -- it was not alone, else it would be gone
  have h_links : w.nlink k ≠ 1 := by
    intro h_one
    have h_mem : p ∈ toDelete w walk :=
      mem_toDelete.mpr ⟨h_walk p k d h_root hw h_reg, singleFile_iff.mpr ⟨k, d, hw, h_reg, h_one⟩⟩
    have h_files : ∀ q ∈ toDelete w walk, w.isDir q = false := by
      intro q hq
      obtain ⟨j, d', hj, h_reg', -⟩ := exists_of_singleFile (mem_toDelete.mp hq).2
      rw [Bool.eq_false_iff, Ne, isDir_iff, kind?_of_names hj, h_reg']
      simp
    have h_none : v.names p = none := hv ▸ run_unlinkEach_nil h_files e p h_mem
    rw [h_none] at hp
    cases hp
  have h_pos : 0 < w.nlink k := w.nlink_pos hw
  obtain ⟨q, h_ne, hq⟩ := (w.two_le_nlink_iff hw).mp (by omega)
  exact ⟨q, h_ne, (h_unlinks.names_iff hp q).mpr hq⟩

/-! ### `HardlinkTree` behind it -/

/-- The jobs of `HardlinkTree` before their first call, for a walk in the state `s`. -/
def hardlinkTreeJobs (sha1 : Bytes → Bytes) (s : FileSystem Tree) (ncpu : ℕ) (tid : Fin ncpu → ℕ)
    (walk : List (Path Tree)) (err : Fin ncpu → Errno) : Pool (sig Tree) (Fin ncpu) (FileSystem Tree) Unit where
  threads i := ⟨hardlinkTreeJob sha1 (tid i) (walked s ncpu 0 (fun _ => []) walk i), err i⟩
  state := s

/-- Every file with one name is dealt out. -/
theorem exists_mem_walked {ncpu cpu : ℕ} {toHardlink : ℕ → List (Path Tree)} (h_cpu : cpu < ncpu)
    (h : p ∈ walk ∧ singleFile w p = true ∨ ∃ i < ncpu, p ∈ toHardlink i) :
    ∃ i < ncpu, p ∈ walked w ncpu cpu toHardlink walk i := by
  induction walk generalizing cpu toHardlink with
  | nil =>
    obtain ⟨h_mem, -⟩ | h := h
    · cases h_mem
    · exact h
  | cons q walk ih =>
    rw [walked]
    split
    · refine ih (Nat.mod_lt _ (by omega)) ?_
      obtain ⟨h_mem, h_single⟩ | ⟨i, hi, h_mem⟩ := h
      · obtain rfl | h_mem := List.mem_cons.mp h_mem
        · exact .inr ⟨cpu, h_cpu, by simp⟩
        · exact .inl ⟨h_mem, h_single⟩
      · refine .inr ⟨i, hi, ?_⟩
        by_cases h_eq : i = cpu
        · subst h_eq
          rw [Function.update_self]
          exact List.mem_append_left _ h_mem
        · rwa [Function.update_of_ne h_eq]
    · next h_not =>
      refine ih h_cpu ?_
      obtain ⟨h_mem, h_single⟩ | h_dealt := h
      · have h_ne : p ≠ q := fun h_eq => h_not (h_eq ▸ h_single)
        exact .inl ⟨(List.mem_cons.mp h_mem).resolve_left h_ne, h_single⟩
      · exact .inr h_dealt

/-- Nothing else is. -/
theorem mem_of_mem_walked {ncpu i : ℕ} (h_walk : walk.Nodup) (h : p ∈ walked w ncpu 0 (fun _ => []) walk i) :
    p ∈ walk := by
  have h_dealt : Dealt w (· ∈ walk) (walked w ncpu 0 (fun _ => []) walk) [] :=
    dealt_walked h_walk (fun _ hp => hp) ncpu ⟨by simp, by simp, by simp, by simp⟩
  exact (h_dealt.file i p h).2

section Start

variable {sha1 : Bytes → Bytes} {ncpu : ℕ} {tid : Fin ncpu → ℕ} {walkRepo : List (Path Tree)}

/-- No file of the walk has the name that a job makes up for another one. -/
def NamedApart (tid : Fin ncpu → ℕ) (walk : List (Path Tree)) : Prop :=
  ∀ p ∈ walk, ∀ q ∈ walk, ∀ i, p ≠ lockName q ∧ p ≠ tmpName q "of".toList (tid i)

theorem NamedApart.fresh (h : NamedApart tid walk) (h_tid : Function.Injective tid) (h_walk : walk.Nodup)
    (h_root : ∀ p ∈ walk, p.root = .workdir ∧ p.rel ≠ [])
    (h_repo : ∀ g k, w.names (digestPath g) = some k → ∃ d, (w.node k).kind = .reg d ∧ sha1 d = g) :
    (hardlinkTree w ncpu tid walk h_tid h_walk h_root h_repo).Fresh := by
  intro i j p hp h_made
  have h_mem : p ∈ walk := mem_of_mem_walked h_walk hp
  obtain ⟨q, hq, rfl⟩ | ⟨q, hq | ⟨g, rfl⟩, rfl⟩ := h_made
  · exact (h _ h_mem q (mem_of_mem_walked h_walk hq) j).1 rfl
  · exact (h _ h_mem q (mem_of_mem_walked h_walk hq) j).2 rfl
  · -- this one is in the repository
    obtain ⟨h_workdir, -⟩ := h_root _ h_mem
    rw [tmpName_root] at h_workdir
    cases h_workdir

/-- The repository is not the underlying directory. -/
theorem Unlinks.workdir (h : Unlinks (toDelete w walkRepo) w v) (h_gc : ∀ p ∈ walkRepo, p.root = .repository)
    (hp : p.root = .workdir) : v.names p = w.names p := by
  obtain h_eq | ⟨-, h_mem⟩ := h.names p
  · exact h_eq
  · rw [h_gc p (mem_toDelete.mp h_mem).1] at hp
    cases hp

/-- **What the jobs of `HardlinkTree` do** in the state that a collection has left, said of the state before. -/
theorem Unlinks.links (h : Unlinks (toDelete w walkRepo) w v) (h_gc : ∀ p ∈ walkRepo, p.root = .repository)
    (h_ncpu : 0 < ncpu) (h_tid : Function.Injective tid) (h_walk : walk.Nodup)
    (h_root : ∀ p ∈ walk, p.root = .workdir ∧ p.rel ≠ []) (h_apart : NamedApart tid walk)
    (h_repo : ∀ g k, w.names (digestPath g) = some k → ∃ d, (w.node k).kind = .reg d ∧ sha1 d = g)
    {err : Fin ncpu → Errno} {c : Pool (sig Tree) (Fin ncpu) (FileSystem Tree) Unit}
    (hr : Pool.ReachableIf (machine Tree) (fun f => f = none) vacant
      (hardlinkTreeJobs sha1 v ncpu tid walk err) c) (h_ended : ∀ i, Crew.finished (c.threads i)) :
    Lasts v c.state ∧ ∀ p k d, p ∈ walk → w.names p = some k → (w.node k).kind = .reg d → w.nlink k = 1 →
      Linked p (digestPath (sha1 d)) c.state := by
  have h_repo' (g : Bytes) (k : ℕ) (hk : v.names (digestPath g) = some k) :
      ∃ d, (v.node k).kind = .reg d ∧ sha1 d = g := h.node ▸ h_repo g k (h.names_of_some hk)
  have h_progress := progress_of_finished (h_apart.fresh h_tid h_walk h_root h_repo') err hr h_ended
  refine ⟨(h_progress ⟨0, h_ncpu⟩).lasts, fun p k d hp hk h_reg h_one => ?_⟩
  -- the file still has one name, so it is the task of some job
  have h_names : v.names p = w.names p := h.workdir h_gc (h_root p hp).1
  have h_single : singleFile v p = true := by
    rw [h.singleFile_eq h_names]
    exact singleFile_iff.mpr ⟨k, d, hk, h_reg, h_one⟩
  have h_dealt : ∃ i < ncpu, p ∈ walked v ncpu 0 (fun _ => []) walk i :=
    exists_mem_walked h_ncpu (.inl ⟨hp, h_single⟩)
  obtain ⟨i, hi, h_task⟩ := h_dealt
  exact (h_progress ⟨i, hi⟩).done p h_task List.not_mem_nil k d (h_names.trans hk) (h.node ▸ h_reg)

/-- **The start of the program.** Whatever fails while the repository is collected, the collection comes to its
end and has left the names of the underlying directory and all inodes as they were; if nothing fails, each file
that it leaves in the repository has another name. When then the jobs of `HardlinkTree` have ended, and no
`renameat` has replaced a repository file, no inode from before has changed, the repository files are still
there, and each file that had one name shares its inode with the repository file of its content. -/
theorem start_links (h_gc : ∀ p ∈ walkRepo, p.root = .repository) (h_ncpu : 0 < ncpu)
    (h_tid : Function.Injective tid) (h_walk : walk.Nodup)
    (h_root : ∀ p ∈ walk, p.root = .workdir ∧ p.rel ≠ []) (h_apart : NamedApart tid walk)
    (h_repo : ∀ g k, w.names (digestPath g) = some k → ∃ d, (w.node k).kind = .reg d ∧ sha1 d = g)
    (e : Errno) (faults : List (Option Fault)) (err : Fin ncpu → Errno) :
    ∃ v, (machine Tree).run (gcTree w walkRepo) e faults w = v ∧ v.outcome = .done () ∧
      v.state.node = w.node ∧ (∀ p, p.root = .workdir → v.state.names p = w.names p) ∧
      (faults = [] → (∀ p k d, p.root = .repository → w.names p = some k → (w.node k).kind = .reg d →
        p ∈ walkRepo) → ∀ p k d, p.root = .repository → v.state.names p = some k →
          (w.node k).kind = .reg d → ∃ q, q ≠ p ∧ v.state.names q = some k) ∧
      ∀ c, Pool.ReachableIf (machine Tree) (fun f => f = none) vacant
          (hardlinkTreeJobs sha1 v.state ncpu tid walk err) c → (∀ i, Crew.finished (c.threads i)) →
        Keeps w c.state ∧
        (∀ g r, v.state.names (digestPath g) = some r → c.state.names (digestPath g) = some r) ∧
        ∀ p k d, p ∈ walk → w.names p = some k → (w.node k).kind = .reg d → w.nlink k = 1 →
          ∃ r, c.state.names p = some r ∧ c.state.names (digestPath (sha1 d)) = some r := by
  obtain ⟨h_done, h_unlinks⟩ := run_gcTree w walkRepo e faults
  refine ⟨_, rfl, h_done, h_unlinks.node, fun _ hp => h_unlinks.workdir h_gc hp, ?_, fun c hr h_ended => ?_⟩
  · rintro rfl h_all p k d hp hk h_reg
    exact shared_of_gcTree rfl h_all hp hk (h_unlinks.node ▸ h_reg)
  · obtain ⟨h_lasts, h_linked⟩ :=
      h_unlinks.links h_gc h_ncpu h_tid h_walk h_root h_apart h_repo hr h_ended
    exact ⟨h_unlinks.keeps.trans h_lasts.keeps, h_lasts.repo, h_linked⟩

/-- A file of the repository that no directory uses. -/
def stalePath : Path Tree := ⟨.repository, ["s".toList]⟩

def staleMount : FileSystem Tree :=
  (Crew.twoFiles.alloc ⟨.reg [121], ⟨0o644#12, 0, 0, 0, 0, 0, []⟩⟩).setName stalePath 4

/-- It is removed, and then the jobs come one after the other. -/
def playedAfterGc : Pool (sig Tree) (Fin 2) (FileSystem Tree) Unit :=
  Pool.play (machine Tree) inTurn (hardlinkTreeJobs id
    ((machine Tree).run (gcTree staleMount [stalePath]) .ENOENT [] staleMount).state 2 Fin.val [fileA, fileB]
    fun _ => .ENOENT)

theorem staleMount_digestPath (g : Bytes) : staleMount.names (digestPath g) = none := by
  have h_ne : digestPath g ≠ stalePath := by
    intro h_eq
    have h_length := congrArg (fun p => p.rel.length) h_eq
    cases h_length
  rw [staleMount, setName_names, Function.update_of_ne h_ne]
  exact Crew.twoFiles_digestPath g

theorem start_links_staleMount : ∃ r, playedAfterGc.state.names fileA = some r ∧
    playedAfterGc.state.names (digestPath [120]) = some r := by
  have h_stale : ∀ p ∈ [stalePath], p.root = .repository := by decide
  have h_tid : Function.Injective (Fin.val : Fin 2 → ℕ) := fun _ _ => Fin.ext
  have h_apart : NamedApart (Fin.val : Fin 2 → ℕ) [fileA, fileB] := by
    unfold NamedApart
    decide +kernel
  have h_repo (g : Bytes) (k : ℕ) (hk : staleMount.names (digestPath g) = some k) :
      ∃ d, (staleMount.node k).kind = .reg d ∧ id d = g := by
    rw [staleMount_digestPath] at hk
    cases hk
  obtain ⟨v, rfl, -, -, -, -, h_jobs⟩ := start_links h_stale Nat.two_pos h_tid twoFiles_walk.1
    twoFiles_walk.2 h_apart h_repo .ENOENT [] fun _ => .ENOENT
  obtain ⟨-, -, h_links⟩ := h_jobs playedAfterGc (Pool.reachableIf_play (by decide) (by decide +kernel))
    (by decide +kernel)
  exact h_links fileA 2 [120] (by decide) (by decide +kernel) (by decide +kernel) (by decide +kernel)

end Start

end GitlstreeFS.Cowfs
