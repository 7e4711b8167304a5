import GitlstreeFS.Cowfs.Spec
import GitlstreeFS.Effect.RelyGuarantee

/-!
# Deduplication and collection from several threads

`HardlinkTree` links the files of a directory with the repository from several threads, and a
mounted cowfs does so with every file that is closed, while repository files that nothing else uses
are removed. A thread is a list of such jobs here, and a `Crew` is a family of threads on one mount
whose jobs are about pairwise different files of different inodes.

The lock of `findOutRepoAndMaybeHardlink` belongs to the working file, so nothing orders what the
threads do to one repository file. What they do to it one call at a time is `Touch`, the list of all
changes of a name, and `Guarantee` says that a call makes no other change. From the list follow

* `Inv.step`: every call of every thread keeps the invariant `Inv` of the mount;
* `undisturbed`: what a thread may count on between two of its calls.

The invariant has one clause that is not about content: a file which shared the inode of its
repository file from the start is *pinned* there. Its link count is two for good, so no collection
removes it, and no thread finds it missing. This is why no thread ever renames a name onto another
name of the same inode, which would do nothing and leave a temporary name behind.
-/

namespace GitlstreeFS.Cowfs

open Effect Posix FileSystem Relation

/-! ### Paths of digests -/

/-- The repository directory of a digest, whether or not it is the digest of a content. -/
def digestDir (digest : Bytes) : Path Tree :=
  repoDir id digest

/-- The hash-named repository path of a digest. -/
def digestPath (digest : Bytes) : Path Tree :=
  repoPath id digest

theorem repoPath_eq (sha1 : Bytes → Bytes) (d : Bytes) : repoPath sha1 d = digestPath (sha1 d) := rfl

theorem repoDir_eq (sha1 : Bytes → Bytes) (d : Bytes) : repoDir sha1 d = digestDir (sha1 d) := rfl

theorem digestPath_injective : Function.Injective digestPath :=
  repoPath_injective Function.injective_id

theorem digestPath_clean (digest : Bytes) : Clean (digestPath digest) :=
  repoPath_clean digest

theorem digestDir_clean (digest : Bytes) : Clean (digestDir digest) :=
  repoDir_clean digest

theorem top_clean (r : Tree) : Clean (⟨r, []⟩ : Path Tree) := by
  intro n hn
  cases hn

@[simp] theorem digestPath_root (digest : Bytes) : (digestPath digest).root = .repository := rfl

@[simp] theorem digestDir_root (digest : Bytes) : (digestDir digest).root = .repository := rfl

@[simp] theorem digestPath_parent (digest : Bytes) : (digestPath digest).parent = digestDir digest := rfl

@[simp] theorem digestDir_parent (digest : Bytes) :
    (digestDir digest).parent = ⟨.repository, []⟩ := rfl

theorem digestPath_ne_digestDir (g g' : Bytes) : digestPath g ≠ digestDir g' :=
  repoPath_ne_repoDir g g'

theorem digestDir_ne_top (g : Bytes) : digestDir g ≠ ⟨.repository, []⟩ :=
  fun h => by simpa [digestDir, repoDir] using congrArg Path.rel h

theorem digestPath_ne_top (g : Bytes) : digestPath g ≠ ⟨.repository, []⟩ :=
  fun h => by simpa [digestPath, repoPath, Path.child] using congrArg Path.rel h

/-! ### Jobs -/

/-- What a thread is given to do. -/
inductive Job where
  | dedup (target : Path Tree)
  | collect (digest : Bytes)
  deriving DecidableEq

variable {sha1 : Bytes → Bytes} {ι : Type}

def Job.run (sha1 : Bytes → Bytes) (tid : ℕ) : Job → Proc Tree Bool
  | .dedup target => findOutRepoAndMaybeHardlink sha1 tid target
  | .collect digest => garbageCollectOneRepoFile (digestPath digest)

/-- One job after the other, whatever they return. -/
def runJobs (sha1 : Bytes → Bytes) (tid : ℕ) : List Job → Proc Tree Unit
  | [] => pure ()
  | job :: jobs => do
    let _ ← job.run sha1 tid
    runJobs sha1 tid jobs

variable (sha1 ι) in
/-- Threads that start on the mount `start`. No file bears a temporary or a lock name, the
repository is in order, and the files to be deduplicated are regular ones that can be read, at
different paths with different inodes. -/
structure Crew where
  start : FileSystem Tree
  /-- The number of a thread, `pthread_self`. -/
  tid : ι → ℕ
  jobs : ι → List Job
  tid_injective : Function.Injective tid
  tidy : Tidy start
  top : start.isDir ⟨.repository, []⟩
  dirs : ∀ g, start.names (digestDir g) ≠ none → start.isDir (digestDir g)
  files : ∀ g k, start.names (digestPath g) = some k → ∃ d, (start.node k).kind = .reg d ∧ sha1 d = g
  target : ∀ i p, .dedup p ∈ jobs i → p.root = .workdir ∧ start.isDir p.parent ∧
    ∃ k d, start.names p = some k ∧ (start.node k).kind = .reg d ∧
      start.cred.permits (start.node k).attr 2
  /-- The files of different threads. -/
  apart : ∀ i j p q, i ≠ j → .dedup p ∈ jobs i → .dedup q ∈ jobs j → start.names p ≠ start.names q
  /-- The files of one thread. -/
  once : ∀ i, (jobs i).Pairwise fun a b =>
    ∀ p q, a = .dedup p → b = .dedup q → start.names p ≠ start.names q

namespace Crew

variable (crew : Crew sha1 ι) {i j : ι} {p q : Path Tree} {g : Bytes} {s s' s'' : FileSystem Tree}

/-- The threads before their first call. The error registers hold anything. -/
def pool (err : ι → Errno) : Pool (sig Tree) ι (FileSystem Tree) Unit where
  threads i := ⟨runJobs sha1 (crew.tid i) (crew.jobs i), err i⟩
  state := crew.start

/-- The names that thread `i` makes up. -/
def Own (i : ι) (q : Path Tree) : Prop :=
  ∃ p, .dedup p ∈ crew.jobs i ∧
    (q = lockName p ∨ q = tmpName p "of".toList (crew.tid i) ∨
      ∃ g, q = tmpName (digestPath g) "of".toList (crew.tid i))

/-- A working file had the inode of this repository file from the start. -/
def Pinned (g : Bytes) : Prop :=
  ∃ i p, .dedup p ∈ crew.jobs i ∧ crew.start.names (digestPath g) = crew.start.names p

variable {crew}

theorem target_root (hp : .dedup p ∈ crew.jobs i) : p.root = .workdir :=
  (crew.target i p hp).1

theorem target_exists (hp : .dedup p ∈ crew.jobs i) : crew.start.names p ≠ none := by
  obtain ⟨-, -, k, d, hk, -⟩ := crew.target i p hp
  simp [hk]

theorem target_clean (hp : .dedup p ∈ crew.jobs i) : Clean p :=
  crew.tidy p (target_exists hp)

theorem target_parent (hp : .dedup p ∈ crew.jobs i) : crew.start.isDir p.parent :=
  (crew.target i p hp).2.1

theorem target_parent_clean (hp : .dedup p ∈ crew.jobs i) : Clean p.parent :=
  fun n hn => target_clean hp n (List.mem_of_mem_tail hn)

/-- A file is not the root directory. -/
theorem target_rel (hp : .dedup p ∈ crew.jobs i) : p.rel ≠ [] := by
  intro h_nil
  obtain ⟨-, h_dir, k, d, hk, h_reg, -⟩ := crew.target i p hp
  have h_parent : p.parent = p := Posix.Path.ext rfl (by simp [Path.parent, h_nil])
  rw [h_parent, isDir_iff, kind?_of_names hk, h_reg] at h_dir
  cases h_dir

/-! ### The names of different threads -/

theorem lockName_injOn (hp : p.rel ≠ []) (hq : q.rel ≠ []) (h : lockName p = lockName q) : p = q := by
  rcases p with ⟨r, _ | ⟨n, ds⟩⟩
  · exact absurd rfl hp
  · rcases q with ⟨r', _ | ⟨n', ds'⟩⟩
    · exact absurd rfl hq
    · simp only [lockName, Path.append, Posix.Path.mk.injEq, List.cons.injEq] at h
      obtain ⟨h_root, h_name, h_dir⟩ := h
      rw [h_root, List.append_cancel_right h_name, h_dir]

theorem Own.not_clean (h : crew.Own i q) : ¬ Clean q := by
  obtain ⟨p, -, rfl | rfl | ⟨g, rfl⟩⟩ := h
  · exact lockName_not_clean p
  · exact tmpName_not_clean p of_mem_tempTags _
  · exact tmpName_not_clean _ of_mem_tempTags _

/-- What lies below a path lies in it or in a directory below it. -/
theorem below_parent (h : Path.Below p q) (h_ne : q ≠ p) : Path.Below p q.parent := by
  obtain ⟨h_root, h_rel⟩ := h
  refine ⟨h_root, ?_⟩
  rcases q with ⟨r, _ | ⟨n, ds⟩⟩
  · exact absurd (Posix.Path.ext h_root (List.suffix_nil.mp h_rel).symm) h_ne
  · rcases List.suffix_cons_iff.mp h_rel with h_eq | h_tail
    · exact absurd (Posix.Path.ext h_root h_eq.symm) h_ne
    · exact h_tail

/-- A name a thread makes up lies in a directory that was there. -/
theorem Own.parent_clean (h : crew.Own i q) : Clean q.parent := by
  obtain ⟨p, hp, rfl | rfl | ⟨g, rfl⟩⟩ := h
  · simpa using target_parent_clean hp
  · simpa using target_parent_clean hp
  · simpa using digestDir_clean g

/-- A name a thread makes up is its lock on a file, or ends in its number. -/
theorem Own.cases (h : crew.Own i q) : (∃ p, .dedup p ∈ crew.jobs i ∧ q = lockName p) ∨
    ∃ p, q = tmpName p "of".toList (crew.tid i) := by
  obtain ⟨p, hp, h_lock | h_tmp | ⟨g, h_tmp⟩⟩ := h
  · exact Or.inl ⟨p, hp, h_lock⟩
  · exact Or.inr ⟨p, h_tmp⟩
  · exact Or.inr ⟨_, h_tmp⟩

/-- Different threads make up different names. -/
theorem Own.eq (h : crew.Own i q) (h' : crew.Own j q) : i = j := by
  by_contra h_ne
  rcases h.cases with ⟨p, hp, rfl⟩ | ⟨p, rfl⟩
  · rcases h'.cases with ⟨p', hp', h_eq⟩ | ⟨p', h_eq⟩
    · have h_path : p = p' := lockName_injOn (target_rel hp) (target_rel hp') h_eq
      exact crew.apart i j p p' h_ne hp hp' (congrArg crew.start.names h_path)
    · exact lockName_ne_tmpName p p' of_mem_tempTags _ h_eq
  · rcases h'.cases with ⟨p', hp', h_eq⟩ | ⟨p', h_eq⟩
    · exact lockName_ne_tmpName p' p of_mem_tempTags _ h_eq.symm
    · exact h_ne (crew.tid_injective (tmpName_tid of_mem_tempTags of_mem_tempTags h_eq))

/-! ### What one call can do -/

variable (crew) in
/-- What a call of thread `i` may do to a path that it has not made up itself. -/
inductive Touch (i : ι) (s s' : FileSystem Tree) (q : Path Tree) : Prop
  | nothing (h_same : s'.names q = s.names q)
  /-- `mkdir` in the repository. -/
  | made (g : Bytes) (h_path : q = digestDir g) (h_free : s.names q = none) (h_dir : s'.isDir q)
  /-- `unlink` of a repository file, which may have come to have other names by now. -/
  | collected (g : Bytes) (h_path : q = digestPath g) (h_free : ¬ crew.Pinned g)
    (h_gone : s'.names q = none)
  /-- `renameat` of a file new to the repository. -/
  | stored (p : Path Tree) (d : Bytes) (k : ℕ) (h_job : .dedup p ∈ crew.jobs i)
    (h_start : crew.start.names p = some k) (h_reg : (s'.node k).kind = .reg d)
    (h_path : q = digestPath (sha1 d)) (h_free : ¬ crew.Pinned (sha1 d))
    (h_names : s'.names q = some k)
  /-- `renameat` of a file from the repository. -/
  | shared (h_job : .dedup q ∈ crew.jobs i) (h_kind : s'.kind? q = s.kind? q)
    (h_free : ∀ g, crew.start.names (digestPath g) ≠ crew.start.names q)

variable (crew) in
/-- A step of thread `i`. -/
structure Guarantee (i : ι) (s s' : FileSystem Tree) : Prop where
  keeps : Keeps s s'
  touch : ∀ q, Clean q → crew.Touch i s s' q
  reserved : ∀ q, ¬ Clean q → ¬ crew.Own i q → s'.names q = s.names q

variable (crew) in
/-- A step of another thread than `i`. -/
def Rely (i : ι) (s s' : FileSystem Tree) : Prop :=
  ∃ j, j ≠ i ∧ crew.Guarantee j s s'

theorem Guarantee.refl (i : ι) (s : FileSystem Tree) : crew.Guarantee i s s :=
  ⟨.refl s, fun _ _ => .nothing rfl, fun _ _ _ => rfl⟩

/-- A call that changes only names the thread has made up. -/
theorem Guarantee.of_own (h_keeps : Keeps s s')
    (h_same : ∀ q, ¬ crew.Own i q → s'.names q = s.names q) : crew.Guarantee i s s' :=
  ⟨h_keeps, fun q hq => .nothing (h_same q fun h => h.not_clean hq), fun q _ => h_same q⟩

/-- A call that changes one other name besides. -/
theorem Guarantee.of_touch (h_keeps : Keeps s s') (h_clean : Clean q) (h_touch : crew.Touch i s s' q)
    (h_same : ∀ q', ¬ crew.Own i q' → q' ≠ q → s'.names q' = s.names q') : crew.Guarantee i s s' := by
  refine ⟨h_keeps, fun q' hq' => ?_, fun q' hq' h_own => h_same q' h_own ?_⟩
  · by_cases h_eq : q' = q
    · rw [h_eq]
      exact h_touch
    · exact .nothing (h_same q' (fun h => h.not_clean hq') h_eq)
  · rintro rfl
    exact hq' h_clean

namespace Touch

/-- In the working directory a call changes only a target of its thread. -/
theorem workdir (h_root : q.root = .workdir) (h : crew.Touch i s s' q) : s'.names q = s.names q ∨
    (.dedup q ∈ crew.jobs i ∧ s'.kind? q = s.kind? q ∧
      ∀ g, crew.start.names (digestPath g) ≠ crew.start.names q) := by
  cases h with
  | nothing h_same => exact Or.inl h_same
  | made g h_path _ _ => exact absurd h_path (ne_of_root h_root rfl)
  | collected g h_path _ _ => exact absurd h_path (ne_of_root h_root rfl)
  | stored p d k _ _ _ h_path _ _ => exact absurd h_path (ne_of_root h_root rfl)
  | shared h_job h_kind h_free => exact Or.inr ⟨h_job, h_kind, h_free⟩

theorem top (h : crew.Touch i s s' ⟨.repository, []⟩) :
    s'.names ⟨.repository, []⟩ = s.names ⟨.repository, []⟩ := by
  cases h with
  | nothing h_same => exact h_same
  | made g h_path _ _ => exact absurd h_path.symm (digestDir_ne_top g)
  | collected g h_path _ _ => exact absurd h_path.symm (digestPath_ne_top g)
  | stored p d k _ _ _ h_path _ _ => exact absurd h_path.symm (digestPath_ne_top _)
  | shared h_job _ _ => exact absurd rfl (ne_of_root (target_root h_job) rfl)

theorem dir (h : crew.Touch i s s' (digestDir g)) : s'.names (digestDir g) = s.names (digestDir g) ∨
    s.names (digestDir g) = none ∧ s'.isDir (digestDir g) := by
  cases h with
  | nothing h_same => exact Or.inl h_same
  | made g' _ h_free h_dir => exact Or.inr ⟨h_free, h_dir⟩
  | collected g' h_path _ _ => exact absurd h_path.symm (digestPath_ne_digestDir g' g)
  | stored p d k _ _ _ h_path _ _ => exact absurd h_path.symm (digestPath_ne_digestDir _ g)
  | shared h_job _ _ => exact absurd rfl (ne_of_root (target_root h_job) rfl)

/-- A repository file that is not pinned may go, or become another file of the same content. -/
theorem file (h : crew.Touch i s s' (digestPath g)) :
    s'.names (digestPath g) = s.names (digestPath g) ∨
      ¬ crew.Pinned g ∧ (s'.names (digestPath g) = none ∨
        ∃ p d k, .dedup p ∈ crew.jobs i ∧ crew.start.names p = some k ∧
          (s'.node k).kind = .reg d ∧ sha1 d = g ∧ s'.names (digestPath g) = some k) := by
  cases h with
  | nothing h_same => exact Or.inl h_same
  | made g' h_path _ _ => exact absurd h_path (digestPath_ne_digestDir g g')
  | collected g' h_path h_free h_gone =>
    obtain rfl := digestPath_injective h_path
    exact Or.inr ⟨h_free, Or.inl h_gone⟩
  | stored p d k h_job h_start h_reg h_path h_free h_names =>
    obtain rfl := digestPath_injective h_path
    exact Or.inr ⟨h_free, Or.inr ⟨p, d, k, h_job, h_start, h_reg, rfl, h_names⟩⟩
  | shared h_job _ _ => exact absurd rfl (ne_of_root (target_root h_job) rfl)

end Touch

/-! ### The invariant of the mount -/

variable (crew) in
/-- What holds at every moment. -/
structure Inv (s : FileSystem Tree) : Prop where
  keeps : Keeps crew.start s
  /-- Every path of the working directory shows what it showed at the start. -/
  work : ∀ q, q.root = .workdir → Clean q → s.kind? q = crew.start.kind? q
  top : s.isDir ⟨.repository, []⟩
  dirs : ∀ g, s.names (digestDir g) ≠ none → s.isDir (digestDir g)
  /-- A repository file holds a content with the digest it is named by. -/
  files : ∀ g k, s.names (digestPath g) = some k → ∃ d, (s.node k).kind = .reg d ∧ sha1 d = g
  /-- A working file that had the inode of its repository file at the start shares it for good. -/
  pinned : ∀ i p g, .dedup p ∈ crew.jobs i → crew.start.names (digestPath g) = crew.start.names p →
    s.names p = crew.start.names p ∧ s.names (digestPath g) = crew.start.names p
  /-- The only temporary and lock names are those the threads make up. -/
  reserved : ∀ q, ¬ Clean q → (∀ i, ¬ crew.Own i q) → s.names q = none

theorem inv_start : crew.Inv crew.start where
  keeps := .refl _
  work _ _ _ := rfl
  top := crew.top
  dirs := crew.dirs
  files := crew.files
  pinned _ _ _ _ h := ⟨rfl, h⟩
  reserved _ hq _ := crew.tidy.names_eq_none hq

/-- **Every call of every thread keeps the invariant.** -/
theorem Inv.step (h : crew.Inv s) (hg : crew.Guarantee i s s') : crew.Inv s' := by
  refine ⟨h.keeps.trans hg.keeps, ?_, ?_, ?_, ?_, ?_, ?_⟩
  · intro q h_root hq
    rcases (hg.touch q hq).workdir h_root with h_same | ⟨-, h_kind, -⟩
    · rw [hg.keeps.kind? h_same, h.work q h_root hq]
    · rw [h_kind, h.work q h_root hq]
  · rw [hg.keeps.isDir (hg.touch _ (top_clean _)).top]
    exact h.top
  · intro g h_some
    rcases (hg.touch _ (digestDir_clean g)).dir with h_same | ⟨-, h_dir⟩
    · rw [h_same] at h_some
      rw [hg.keeps.isDir h_same]
      exact h.dirs g h_some
    · exact h_dir
  · intro g k hk
    rcases (hg.touch _ (digestPath_clean g)).file with h_same | ⟨-, h_gone | h_new⟩
    · rw [h_same] at hk
      rw [hg.keeps.node_of_names hk]
      exact h.files g k hk
    · simp [h_gone] at hk
    · obtain ⟨p, d, k', -, -, h_reg, h_digest, h_names⟩ := h_new
      obtain rfl : k' = k := Option.some.inj (h_names.symm.trans hk)
      exact ⟨d, h_reg, h_digest⟩
  · -- neither a collection nor a thread that stores a file touches a pinned one
    intro j p g hp h_pin
    obtain ⟨h_work, h_repo⟩ := h.pinned j p g hp h_pin
    constructor
    · rcases (hg.touch p (target_clean hp)).workdir (target_root hp) with h_same | ⟨-, -, h_free⟩
      · rw [h_same, h_work]
      · exact absurd h_pin (h_free g)
    · rcases (hg.touch _ (digestPath_clean g)).file with h_same | ⟨h_free, -⟩
      · rw [h_same, h_repo]
      · exact absurd ⟨j, p, hp, h_pin⟩ h_free
  · intro q hq h_own
    rw [hg.reserved q hq (h_own i), h.reserved q hq h_own]

namespace Inv

theorem isDir_digestPath (h : crew.Inv s) (g : Bytes) : s.isDir (digestPath g) = false := by
  rw [Bool.eq_false_iff, Ne, isDir_iff, kind?_eq_some]
  rintro ⟨k, hk, h_dir⟩
  obtain ⟨d, h_reg, -⟩ := h.files g k hk
  rw [h_reg] at h_dir
  cases h_dir

/-- No call unmakes a directory. -/
theorem isDir_step (h : crew.Inv s) (hg : crew.Guarantee i s s') (hq : Clean q) (h_dir : s.isDir q) :
    s'.isDir q := by
  cases hg.touch q hq with
  | nothing h_same => rwa [hg.keeps.isDir h_same]
  | made g _ _ h_made => exact h_made
  | collected g h_path _ _ => simp [h_path, h.isDir_digestPath] at h_dir
  | stored p d k _ _ _ h_path _ _ => simp [h_path, h.isDir_digestPath] at h_dir
  | shared _ h_kind _ => rwa [isDir_iff, h_kind, ← isDir_iff]

/-- A repository file that is missing is not pinned. -/
theorem not_pinned_of_missing (h : crew.Inv s) (hg : s.names (digestPath g) = none) :
    ¬ crew.Pinned g := by
  rintro ⟨i, p, hp, h_pin⟩
  have h_some := (h.pinned i p g hp h_pin).2
  exact target_exists hp (h_some.symm.trans hg)

/-- A repository file without other names is not pinned. -/
theorem not_pinned_of_nlink (h : crew.Inv s) {k : ℕ} (hk : s.names (digestPath g) = some k)
    (h_one : s.nlink k = 1) : ¬ crew.Pinned g := by
  rintro ⟨i, p, hp, h_pin⟩
  obtain ⟨h_work, h_repo⟩ := h.pinned i p g hp h_pin
  have h_path := (s.nlink_eq_one_iff hk).mp h_one p (by rw [h_work, ← h_repo, hk])
  exact ne_of_root (target_root hp) rfl h_path

end Inv

/-! ### Between two calls of a thread -/

variable (crew) in
/-- A later state, seen by a thread that has not changed its targets or the repository since. -/
structure Follows (i : ι) (s s' : FileSystem Tree) : Prop where
  inv : crew.Inv s'
  keeps : Keeps s s'
  target : ∀ p, .dedup p ∈ crew.jobs i → s'.names p = s.names p
  /-- Nobody else gives a repository file the inode that a target had at the start. -/
  foreign : ∀ p g, .dedup p ∈ crew.jobs i → s'.names (digestPath g) = crew.start.names p →
    s.names (digestPath g) = crew.start.names p
  isDir : ∀ q, Clean q → s.isDir q → s'.isDir q

variable (crew) in
/-- A later state, seen by a thread that has done nothing since. -/
structure Undisturbed (i : ι) (s s' : FileSystem Tree) : Prop extends crew.Follows i s s' where
  own : ∀ q, crew.Own i q → s'.names q = s.names q

theorem Follows.refl (h : crew.Inv s) (i : ι) : crew.Follows i s s :=
  ⟨h, .refl s, fun _ _ => rfl, fun _ _ _ => id, fun _ _ => id⟩

theorem Follows.trans (h : crew.Follows i s s') (h' : crew.Follows i s' s'') :
    crew.Follows i s s'' where
  inv := h'.inv
  keeps := h.keeps.trans h'.keeps
  target p hp := (h'.target p hp).trans (h.target p hp)
  foreign p g hp hs := h.foreign p g hp (h'.foreign p g hp hs)
  isDir q hq hd := h'.isDir q hq (h.isDir q hq hd)

theorem Undisturbed.refl (h : crew.Inv s) (i : ι) : crew.Undisturbed i s s :=
  ⟨.refl h i, fun _ _ => rfl⟩

theorem Undisturbed.trans (h : crew.Undisturbed i s s') (h' : crew.Undisturbed i s' s'') :
    crew.Undisturbed i s s'' :=
  ⟨h.toFollows.trans h'.toFollows, fun q hq => (h'.own q hq).trans (h.own q hq)⟩

/-- A step of another thread. -/
theorem undisturbed_step (h : crew.Inv s) (hr : crew.Rely i s s') : crew.Undisturbed i s s' := by
  obtain ⟨j, h_ne, hg⟩ := hr
  refine ⟨⟨h.step hg, hg.keeps, ?_, ?_, fun q hq => h.isDir_step hg hq⟩, ?_⟩
  · intro p hp
    rcases (hg.touch p (target_clean hp)).workdir (target_root hp) with h_same | ⟨hp', -, -⟩
    · exact h_same
    · exact absurd rfl (crew.apart j i p p h_ne hp' hp)
  · intro p g hp h_eq
    rcases (hg.touch _ (digestPath_clean g)).file with h_same | ⟨-, h_gone | h_new⟩
    · rw [← h_same, h_eq]
    · exact absurd (h_eq.symm.trans h_gone) (target_exists hp)
    · obtain ⟨p', d, k, hp', h_start, -, -, h_names⟩ := h_new
      refine absurd ?_ (crew.apart j i p' p h_ne hp' hp)
      rw [h_start, ← h_names, h_eq]
  · intro q h_own
    exact hg.reserved q h_own.not_clean fun h_own' => h_ne (h_own'.eq h_own)

/-- **What a thread may count on** while the others go on. -/
theorem undisturbed (h : crew.Inv s) (hr : ReflTransGen (crew.Rely i) s s') :
    crew.Undisturbed i s s' := by
  induction hr with
  | refl => exact .refl h i
  | tail _ h_step ih => exact ih.trans (undisturbed_step ih.inv h_step)

end Crew

end GitlstreeFS.Cowfs
