import GitlstreeFS.Cowfs.Parallel
import GitlstreeFS.Effect.Restricted

/-!
# Deduplication at start-up

`HardlinkTree` deals out the files of the underlying directory to the processors, and each job calls
`FindOutRepoAndMaybeHardlink` for one file after the other. `Startup` is any distribution of the files over
jobs, `hardlinkTree` the one that the walk comes to, and `Complete` says of a state that files of equal content
are one file, that of the repository.

Two jobs with files of one content may both find it missing from the repository. Then both link their file
there, the second one in place of the first, and the first file stays alone. `deduplicates` is about the runs
in which this does not happen: a `renameat` into the repository replaces nothing there (`vacant`).

In such a run a repository file is there for good once it is there, whoever made it. This is what a job relies
on between its calls, besides that nobody else touches its file and the names it makes up (`Undisturbed`),
and with it a job whose last `renameat` has succeeded has linked its file with the repository.
-/

namespace GitlstreeFS.Cowfs

open Effect Posix FileSystem Relation

/-- A job of `HardlinkTree`. A task that fails ends the process. -/
def hardlinkTreeJob (sha1 : Bytes → Bytes) (tid : ℕ) : List (Path Tree) → Proc Tree Unit
  | [] => pure ()
  | target :: tasks => do
    if ← findOutRepoAndMaybeHardlink sha1 tid target then hardlinkTreeJob sha1 tid tasks else .abort

/-- A `renameat` into the repository is made only where it replaces nothing. -/
def vacant : SysCall Tree → FileSystem Tree → Bool
  | .renameat2 _ b _, s => decide (b.root ≠ .repository) || (s.names b).isNone
  | _, _ => true

variable {sha1 : Bytes → Bytes} {ι : Type}

variable (sha1 ι) in
/-- The jobs of `HardlinkTree` on the state `start`. Every regular file with one link is the task of one job,
and the files of the repository hold contents of the digests they are named by. -/
structure Startup where
  start : FileSystem Tree
  /-- The number of a thread, `pthread_self`. -/
  tid : ι → ℕ
  /-- `to_hardlink`. -/
  tasks : ι → List (Path Tree)
  tid_injective : Function.Injective tid
  root : ∀ i p, p ∈ tasks i → p.root = .workdir ∧ p.rel ≠ []
  file : ∀ i p, p ∈ tasks i → ∃ k d, start.names p = some k ∧ (start.node k).kind = .reg d ∧ start.nlink k = 1
  apart : ∀ i j p, p ∈ tasks i → p ∈ tasks j → i = j
  once : ∀ i, (tasks i).Nodup
  repository : ∀ g k, start.names (digestPath g) = some k → ∃ d, (start.node k).kind = .reg d ∧ sha1 d = g

namespace Startup

/-! ### The walk -/

/-- `FTS_F` and `st_nlink == 1`. -/
def singleFile (w : FileSystem Tree) (p : Path Tree) : Bool :=
  match w.names p with
  | some k => (match (w.node k).kind with | .reg _ => true | _ => false) && w.nlink k == 1
  | none => false

theorem exists_of_singleFile {w : FileSystem Tree} {p : Path Tree} (h : singleFile w p) :
    ∃ k d, w.names p = some k ∧ (w.node k).kind = .reg d ∧ w.nlink k = 1 := by
  unfold singleFile at h
  split at h
  · next k hk =>
    rw [Bool.and_eq_true, beq_iff_eq] at h
    obtain ⟨h_kind, h_one⟩ := h
    split at h_kind
    · next d h_reg => exact ⟨k, d, hk, h_reg, h_one⟩
    · cases h_kind
  · cases h

/-- The walk of `HardlinkTree` over a directory: its files are dealt out to the vectors `toHardlink`, starting
with that of `cpu`. -/
def walked (w : FileSystem Tree) (ncpu : ℕ) : ℕ → (ℕ → List (Path Tree)) → List (Path Tree) → ℕ → List (Path Tree)
  | _, toHardlink, [] => toHardlink
  | cpu, toHardlink, p :: walk =>
    if singleFile w p then
      walked w ncpu ((cpu + 1) % ncpu) (Function.update toHardlink cpu (toHardlink cpu ++ [p])) walk
    else walked w ncpu cpu toHardlink walk

/-- What holds of the vectors before the files of `walk` are dealt out, if `P` holds of all files. -/
structure Dealt (w : FileSystem Tree) (P : Path Tree → Prop) (toHardlink : ℕ → List (Path Tree))
    (walk : List (Path Tree)) : Prop where
  file : ∀ i p, p ∈ toHardlink i → singleFile w p ∧ P p
  ahead : ∀ i p, p ∈ toHardlink i → p ∉ walk
  apart : ∀ i j p, p ∈ toHardlink i → p ∈ toHardlink j → i = j
  once : ∀ i, (toHardlink i).Nodup

/-- A walk that comes to no file twice deals out every file once. -/
theorem dealt_walked {w : FileSystem Tree} {P : Path Tree → Prop} {walk : List (Path Tree)}
    (h_walk : walk.Nodup) (hP : ∀ p ∈ walk, P p) (ncpu : ℕ) {cpu : ℕ} {toHardlink : ℕ → List (Path Tree)}
    (h : Dealt w P toHardlink walk) : Dealt w P (walked w ncpu cpu toHardlink walk) [] := by
  induction walk generalizing cpu toHardlink with
  | nil => exact h
  | cons p walk ih =>
    obtain ⟨h_not, h_walk⟩ := List.nodup_cons.mp h_walk
    -- what has been dealt out does not come again
    have h_ahead : ∀ i q, q ∈ toHardlink i → q ≠ p ∧ q ∉ walk := fun i q hq => by
      simpa using h.ahead i q hq
    have hP' : ∀ q ∈ walk, P q := fun q hq => hP q (List.mem_cons_of_mem _ hq)
    rw [walked]
    split
    -- a file that is no task is passed over
    swap
    · exact ih h_walk hP' ⟨h.file, fun i q hq => (h_ahead i q hq).2, h.apart, h.once⟩
    next h_single =>
    have h_mem : ∀ i q, q ∈ Function.update toHardlink cpu (toHardlink cpu ++ [p]) i ↔
        q ∈ toHardlink i ∨ i = cpu ∧ q = p := fun i q => by
      by_cases h_eq : i = cpu
      · subst h_eq
        simp
      · simp [h_eq]
    refine ih h_walk hP' ⟨fun i q hq => ?_, fun i q hq => ?_, fun i j q hq hq' => ?_, fun i => ?_⟩
    · rcases (h_mem i q).mp hq with hq | ⟨-, rfl⟩
      · exact h.file i q hq
      · exact ⟨h_single, hP q List.mem_cons_self⟩
    · rcases (h_mem i q).mp hq with hq | ⟨-, rfl⟩
      · exact (h_ahead i q hq).2
      · exact h_not
    · rcases (h_mem i q).mp hq with h_old | ⟨h_i, h_eq⟩ <;>
        rcases (h_mem j q).mp hq' with h_old' | ⟨h_j, h_eq'⟩
      · exact h.apart i j q h_old h_old'
      · exact absurd h_eq' (h_ahead i q h_old).1
      · exact absurd h_eq (h_ahead j q h_old').1
      · rw [h_i, h_j]
    · by_cases h_eq : i = cpu
      · subst h_eq
        rw [Function.update_self, ← List.concat_eq_append]
        exact (h.once i).concat fun hp => (h_ahead i p hp).1 rfl
      · rw [Function.update_of_ne h_eq]
        exact h.once i

/-- `HardlinkTree` on `ncpu` processors, for a walk over files of the underlying directory. -/
def hardlinkTree (start : FileSystem Tree) (ncpu : ℕ) (tid : Fin ncpu → ℕ) (walk : List (Path Tree))
    (h_tid : Function.Injective tid) (h_walk : walk.Nodup)
    (h_root : ∀ p ∈ walk, p.root = .workdir ∧ p.rel ≠ [])
    (h_repo : ∀ g k, start.names (digestPath g) = some k → ∃ d, (start.node k).kind = .reg d ∧ sha1 d = g) :
    Startup sha1 (Fin ncpu) :=
  have h_dealt : Dealt start (fun p => p.root = .workdir ∧ p.rel ≠ []) (walked start ncpu 0 (fun _ => []) walk) [] :=
    dealt_walked h_walk h_root ncpu ⟨by simp, by simp, by simp, by simp⟩
  { start
    tid
    tasks i := walked start ncpu 0 (fun _ => []) walk i
    tid_injective := h_tid
    root i p hp := (h_dealt.file i p hp).2
    file i p hp := exists_of_singleFile (h_dealt.file i p hp).1
    apart i j p hp hq := Fin.ext (h_dealt.apart i j p hp hq)
    once i := h_dealt.once i
    repository := h_repo }
variable (tree : Startup sha1 ι)

/-- The jobs before their first call. The error registers hold anything. -/
def pool (err : ι → Errno) : Pool (sig Tree) ι (FileSystem Tree) Unit where
  threads i := ⟨hardlinkTreeJob sha1 (tree.tid i) (tree.tasks i), err i⟩
  state := tree.start

/-- Files that had equal content at the start share one inode, that of the repository file of the content. -/
def Complete (s : FileSystem Tree) : Prop :=
  ∀ i j p q k k' d, p ∈ tree.tasks i → q ∈ tree.tasks j → tree.start.names p = some k →
    (tree.start.node k).kind = .reg d → tree.start.names q = some k' → (tree.start.node k').kind = .reg d →
      ∃ r, s.names p = some r ∧ s.names q = some r ∧ s.names (digestPath (sha1 d)) = some r

/-- **Start-up deduplication is complete**: whatever the schedule, as far as `C` allows its calls. -/
def Deduplicates [DecidableEq ι] (C : SysCall Tree → FileSystem Tree → Bool) (err : ι → Errno) : Prop :=
  ∀ c, Pool.ReachableIf (machine Tree) (fun f => f = none) C (tree.pool err) c →
    (∀ i, Crew.finished (c.threads i)) → tree.Complete c.state

/-! ### The names of a job -/

/-- The names that job `i` makes up. -/
def Made (i : ι) (q : Path Tree) : Prop :=
  (∃ p ∈ tree.tasks i, q = lockName p) ∨
    ∃ p, (p ∈ tree.tasks i ∨ ∃ g, p = digestPath g) ∧ q = tmpName p "of".toList (tree.tid i)

/-- No file of the directory has a name that a job makes up. -/
def Fresh : Prop :=
  ∀ i j p, p ∈ tree.tasks i → ¬ tree.Made j p

/-- The names nobody but job `i` touches. -/
def Mine (i : ι) (q : Path Tree) : Prop :=
  q ∈ tree.tasks i ∨ tree.Made i q

variable {tree} {i j : ι} {p q : Path Tree} {g : Bytes}

theorem Made.not_clean (h : tree.Made i q) : ¬ Clean q := by
  rcases h with ⟨p, -, rfl⟩ | ⟨p, -, rfl⟩
  · exact lockName_not_clean p
  · exact tmpName_not_clean p of_mem_tempTags _

theorem Made.ne (h : tree.Made i q) (hp : ¬ tree.Made i p) : p ≠ q :=
  fun h_eq => hp (h_eq ▸ h)

/-- Different jobs make up different names. -/
theorem Made.eq (h : tree.Made i q) (h' : tree.Made j q) : i = j := by
  rcases h with ⟨p, hp, rfl⟩ | ⟨p, -, rfl⟩
  · rcases h' with ⟨p', hp', h_eq⟩ | ⟨p', -, h_eq⟩
    · rw [Crew.lockName_injOn (tree.root i p hp).2 (tree.root j p' hp').2 h_eq] at hp
      exact tree.apart i j p' hp hp'
    · exact absurd h_eq (lockName_ne_tmpName p p' of_mem_tempTags _)
  · rcases h' with ⟨p', -, h_eq⟩ | ⟨p', -, h_eq⟩
    · exact absurd h_eq.symm (lockName_ne_tmpName p' p of_mem_tempTags _)
    · exact tree.tid_injective (tmpName_tid of_mem_tempTags of_mem_tempTags h_eq)

theorem Mine.eq (h_fresh : tree.Fresh) (h : tree.Mine i q) (h' : tree.Mine j q) : i = j := by
  rcases h with h | h
  · exact h'.elim (tree.apart i j q h) fun h_made => absurd h_made (h_fresh i j q h)
  · exact h'.elim (fun h_task => absurd h (h_fresh j i q h_task)) h.eq

/-- The paths of the repository are nobody's. -/
theorem not_mine (h_root : q.root = .repository) (h_clean : Clean q) : ¬ tree.Mine i q := by
  rintro (h | h)
  · rw [(tree.root i q h).1] at h_root
    cases h_root
  · exact h.not_clean h_clean

/-! ### What one call can do -/

variable {s s' s'' : FileSystem Tree}

/-- What a call of a job does to a path that is not one of its own. -/
inductive Touch (s s' : FileSystem Tree) (q : Path Tree) : Prop
  | nothing (h_same : s'.names q = s.names q)
  /-- `mkdir` in the repository. -/
  | made (g : Bytes) (h_path : q = digestDir g) (h_free : s.names q = none)
  /-- `renameat` of a file new to the repository. -/
  | stored (g d : Bytes) (k : ℕ) (h_path : q = digestPath g) (h_free : s.names q = none)
    (h_names : s'.names q = some k) (h_reg : (s'.node k).kind = .reg d)

variable (tree) in
/-- A step of job `i`. -/
structure Guarantee (i : ι) (s s' : FileSystem Tree) : Prop where
  keeps : Keeps s s'
  touch : ∀ q, ¬ tree.Mine i q → Touch s s' q

variable (tree) in
/-- A step of another job than `i`. -/
def Rely (i : ι) (s s' : FileSystem Tree) : Prop :=
  ∃ j, j ≠ i ∧ tree.Guarantee j s s'

theorem Guarantee.refl (i : ι) (s : FileSystem Tree) : tree.Guarantee i s s :=
  ⟨.refl s, fun _ _ => .nothing rfl⟩

/-- What is in the repository stays there, and it is regular files. -/
structure Lasts (s s' : FileSystem Tree) : Prop where
  keeps : Keeps s s'
  repo : ∀ g r, s.names (digestPath g) = some r → s'.names (digestPath g) = some r
  files : (∀ g r, s.names (digestPath g) = some r → ∃ d, (s.node r).kind = .reg d) →
    ∀ g r, s'.names (digestPath g) = some r → ∃ d, (s'.node r).kind = .reg d

theorem Lasts.refl (s : FileSystem Tree) : Lasts s s :=
  ⟨.refl s, fun _ _ => id, id⟩

theorem Lasts.trans (h : Lasts s s') (h' : Lasts s' s'') : Lasts s s'' :=
  ⟨h.keeps.trans h'.keeps, fun g r hr => h'.repo g r (h.repo g r hr), fun hs => h'.files (h.files hs)⟩

/-- **Every call of every job leaves the repository files where they are.** -/
theorem Guarantee.lasts (h : tree.Guarantee i s s') : Lasts s s' := by
  have h_touch : ∀ g, Touch s s' (digestPath g) := fun g => h.touch _ (not_mine rfl (digestPath_clean g))
  refine ⟨h.keeps, fun g r hr => ?_, fun h_files g r hr => ?_⟩
  · cases h_touch g with
    | nothing h_same => rw [h_same, hr]
    | made g' h_path _ => exact absurd h_path (digestPath_ne_digestDir g g')
    | stored g' d k _ h_free _ _ => rw [h_free] at hr; cases hr
  · cases h_touch g with
    | nothing h_same =>
      rw [h_same] at hr
      rw [h.keeps.node_of_names hr]
      exact h_files g r hr
    | made g' h_path _ => exact absurd h_path (digestPath_ne_digestDir g g')
    | stored g' d k _ _ h_names h_reg =>
      obtain rfl := Option.some.inj (h_names.symm.trans hr)
      exact ⟨d, h_reg⟩

variable (tree) in
/-- A later state, seen by a job that has done nothing since. -/
structure Undisturbed (i : ι) (s s' : FileSystem Tree) : Prop extends Lasts s s' where
  mine : ∀ q, tree.Mine i q → s'.names q = s.names q

theorem Undisturbed.trans (h : tree.Undisturbed i s s') (h' : tree.Undisturbed i s' s'') :
    tree.Undisturbed i s s'' :=
  ⟨h.toLasts.trans h'.toLasts, fun q hq => (h'.mine q hq).trans (h.mine q hq)⟩

/-- **What a job may count on** while the others go on. -/
theorem undisturbed (h_fresh : tree.Fresh) (hr : ReflTransGen (tree.Rely i) s s') :
    tree.Undisturbed i s s' := by
  induction hr with
  | refl => exact ⟨.refl s, fun _ _ => rfl⟩
  | tail _ h_step ih =>
    obtain ⟨j, h_ne, h_guarantee⟩ := h_step
    refine ih.trans ⟨h_guarantee.lasts, fun q hq => ?_⟩
    cases h_guarantee.touch q fun hq' => h_ne (hq'.eq h_fresh hq) with
    | nothing h_same => exact h_same
    | made g h_path _ => exact absurd (h_path ▸ hq) (not_mine rfl (digestDir_clean g))
    | stored g d k h_path _ _ _ => exact absurd (h_path ▸ hq) (not_mine rfl (digestPath_clean g))

/-! ### Judgments -/

variable {α β : Type} {e : Errno} {Q : α → FileSystem Tree → Prop}

variable (tree) in
/-- The judgment of job `i`: no call fails but by the state, or because it would replace a repository
file. The job may end the process. -/
abbrev Runs (i : ι) (Q : α → FileSystem Tree → Prop) (p : Proc Tree α) (e : Errno)
    (s : FileSystem Tree) : Prop :=
  ((machine Tree).refusing vacant .EEXIST).Safe (fun f => f = none) True (tree.Rely i) (tree.Guarantee i) Q
    p e s

theorem runs_pure (h_fresh : tree.Fresh) {a : α} (hQ : ∀ s', tree.Undisturbed i s s' → Q a s') :
    tree.Runs i Q (pure a) e s :=
  fun s' hs' => hQ s' (undisturbed h_fresh hs')

/-- A call that is not refused, whatever it answers. -/
theorem runs_sys (h_fresh : tree.Fresh) {c : SysCall Tree} {f : Except Errno c.Val → Proc Tree α}
    (h_vacant : ∀ s, vacant c s)
    (hc : ∀ s' r s'', tree.Undisturbed i s s' → answer s' c = (r, s'') →
      tree.Guarantee i s' s'' ∧ tree.Runs i Q (f r) (errnoAfter e r) s'') :
    tree.Runs i Q (sys c >>= f) e s := by
  intro s' hs' x hx
  obtain rfl : x = none := hx
  rw [(machine Tree).refusing_exec (h_vacant s'), machine_exec_none]
  exact hc s' _ _ (undisturbed h_fresh hs') rfl

/-- A call that looks and changes nothing. -/
theorem runs_look (h_fresh : tree.Fresh) {c : SysCall Tree} {f : Except Errno c.Val → Proc Tree α}
    (h_vacant : ∀ s, vacant c s) (h_look : ∀ s, (answer s c).2 = s)
    (hc : ∀ s' r, tree.Undisturbed i s s' → (answer s' c).1 = r →
      tree.Runs i Q (f r) (errnoAfter e r) s') :
    tree.Runs i Q (sys c >>= f) e s := by
  refine runs_sys h_fresh h_vacant fun s' r s'' hs' h_answer => ?_
  obtain rfl : s' = s'' := by rw [← h_look s', h_answer]
  exact ⟨.refl i s', hc s' r hs' (by rw [h_answer])⟩

theorem runs_seq {P : β → FileSystem Tree → Prop} {q : Proc Tree β} {f : β → Proc Tree α}
    (hq : tree.Runs i P q e s) (hf : ∀ b e' s', P b s' → tree.Runs i Q (f b) e' s') :
    tree.Runs i Q (q >>= f) e s :=
  Machine.safe_bind hq hf

theorem runs_getErrno {f : Errno → Proc Tree α} (h : tree.Runs i Q (f e) e s) :
    tree.Runs i Q (Prog.getErrno >>= f) e s :=
  h

theorem runs_ite {c : Prop} [Decidable c] {q q' : Proc Tree α} (hq : tree.Runs i Q q e s)
    (hq' : tree.Runs i Q q' e s) : tree.Runs i Q (if c then q else q') e s := by
  split
  · exact hq
  · exact hq'

/-! ### One task -/

section Task

variable {src dst : Path Tree} {d : Bytes}

variable (tree) in
/-- A later state, seen by job `i` after it has worked on `p`. -/
structure Worked (i : ι) (p : Path Tree) (s s' : FileSystem Tree) : Prop extends Lasts s s' where
  target : ∀ q ∈ tree.tasks i, q ≠ p → s'.names q = s.names q

theorem Undisturbed.worked (h : tree.Undisturbed i s s') (p : Path Tree) : tree.Worked i p s s' :=
  ⟨h.toLasts, fun q hq _ => h.mine q (Or.inl hq)⟩

theorem Worked.trans (h : tree.Worked i p s s') (h' : tree.Worked i p s' s'') : tree.Worked i p s s'' :=
  ⟨h.toLasts.trans h'.toLasts, fun q hq h_ne => (h'.target q hq h_ne).trans (h.target q hq h_ne)⟩

variable (tree) in
/-- The task `p` of job `i` in state `s`. -/
structure Task (i : ι) (p : Path Tree) (s : FileSystem Tree) : Prop where
  fresh : tree.Fresh
  job : p ∈ tree.tasks i
  reg : ∀ k, s.names p = some k → ∃ d, (s.node k).kind = .reg d
  files : ∀ g r, s.names (digestPath g) = some r → ∃ d, (s.node r).kind = .reg d

/-- As long as it has not moved its file. -/
theorem Task.lasts (h : tree.Task i p s) (h' : Lasts s s') (h_same : s'.names p = s.names p) :
    tree.Task i p s' := by
  refine ⟨h.fresh, h.job, fun k hk => ?_, h'.files h.files⟩
  rw [h_same] at hk
  rw [h'.keeps.node_of_names hk]
  exact h.reg k hk

theorem Task.undisturbed (h : tree.Task i p s) (h' : tree.Undisturbed i s s') : tree.Task i p s' :=
  h.lasts h'.toLasts (h'.mine p (Or.inl h.job))

/-- A change of names that the job has made up. -/
theorem own_names (h_fresh : tree.Fresh) (h_keeps : Keeps s s')
    (h_same : ∀ q, ¬ tree.Made i q → s'.names q = s.names q) (p : Path Tree) :
    tree.Guarantee i s s' ∧ tree.Worked i p s s' := by
  have h_guarantee : tree.Guarantee i s s' := ⟨h_keeps, fun q hq => .nothing (h_same q fun h => hq (.inr h))⟩
  exact ⟨h_guarantee, h_guarantee.lasts, fun q hq _ => h_same q (h_fresh i i q hq)⟩

theorem Task.own (h : tree.Task i p s) (h_keeps : Keeps s s')
    (h_same : ∀ q, ¬ tree.Made i q → s'.names q = s.names q) :
    tree.Guarantee i s s' ∧ tree.Worked i p s s' ∧ tree.Task i p s' := by
  obtain ⟨h_guarantee, h_worked⟩ := own_names h.fresh h_keeps h_same p
  exact ⟨h_guarantee, h_worked, h.lasts h_guarantee.lasts (h_same p (h.fresh i i p h.job))⟩

/-- A directory that is new to the repository. -/
theorem Task.mkdir (h : tree.Task i p s) (h_free : s.names (digestDir g) = none) (n : Inode Tree) :
    tree.Guarantee i s ((s.alloc n).setName (digestDir g) s.next) ∧
      tree.Worked i p s ((s.alloc n).setName (digestDir g) s.next) ∧
      tree.Task i p ((s.alloc n).setName (digestDir g) s.next) := by
  have h_same : ∀ q, q ≠ digestDir g → ((s.alloc n).setName (digestDir g) s.next).names q = s.names q :=
    fun q hq => Function.update_of_ne hq _ _
  have h_task : ∀ q ∈ tree.tasks i, q ≠ digestDir g := fun q hq => ne_of_root (tree.root i q hq).1 rfl
  have h_guarantee : tree.Guarantee i s ((s.alloc n).setName (digestDir g) s.next) := by
    refine ⟨(keeps_alloc n).trans (keeps_setName (digestDir g) s.next), fun q _ => ?_⟩
    by_cases h_eq : q = digestDir g
    · subst h_eq
      exact .made g rfl h_free
    · exact .nothing (h_same q h_eq)
  exact ⟨h_guarantee, ⟨h_guarantee.lasts, fun q hq _ => h_same q (h_task q hq)⟩,
    h.lasts h_guarantee.lasts (h_same p (h_task p h.job))⟩

/-! ### Linking the file with the repository -/

/-- One of the two files that are to be linked. -/
def End (p q : Path Tree) : Prop :=
  q = p ∨ ∃ g, q = digestPath g

theorem End.made (h : End p q) (h_job : p ∈ tree.tasks i) :
    tree.Made i (tmpName q "of".toList (tree.tid i)) := by
  rcases h with rfl | h
  · exact Or.inr ⟨q, Or.inl h_job, rfl⟩
  · exact Or.inr ⟨q, Or.inr h, rfl⟩

theorem End.not_made (h : End p q) (h_task : tree.Task i p s) : ¬ tree.Made i q := by
  rcases h with rfl | ⟨g, rfl⟩
  · exact h_task.fresh i i q h_task.job
  · exact fun h_made => h_made.not_clean (digestPath_clean g)

/-- It is a regular file. -/
theorem End.reg (h : End p q) (h_task : tree.Task i p s) {k : ℕ} (hk : s.names q = some k) :
    ∃ d, (s.node k).kind = .reg d := by
  rcases h with rfl | ⟨g, rfl⟩
  · exact h_task.reg k hk
  · exact h_task.files g k hk

/-- It stays where it is. -/
theorem End.lasts (h : End p q) (h_job : p ∈ tree.tasks i) (h' : tree.Undisturbed i s s') {k : ℕ}
    (hk : s.names q = some k) : s'.names q = some k := by
  rcases h with rfl | ⟨g, rfl⟩
  · rw [h'.mine q (Or.inl h_job), hk]
  · exact h'.repo g k hk

/-- The move of a file to its place. -/
theorem Task.move (h : tree.Task i p s) (h_dst : End p dst) {tmp : Path Tree} (h_made : tree.Made i tmp)
    {k : ℕ} (hk : s.names tmp = some k) (h_reg : (s.node k).kind = .reg d)
    (h_vacant : vacant (.renameat2 tmp dst .none) s) :
    tree.Guarantee i s (s.moveName tmp dst) ∧ tree.Worked i p s (s.moveName tmp dst) := by
  have h_ne : dst ≠ tmp := h_made.ne (h_dst.not_made h)
  have h_moved := moveName_names s h_ne.symm
  have h_same : ∀ q, q ≠ tmp → q ≠ dst → (s.moveName tmp dst).names q = s.names q := fun q hq hq' => by
    rw [h_moved, Function.update_of_ne hq, Function.update_of_ne hq']
  have h_guarantee : tree.Guarantee i s (s.moveName tmp dst) := by
    refine ⟨keeps_moveName tmp dst, fun q hq => ?_⟩
    have h_tmp : q ≠ tmp := h_made.ne fun h => hq (Or.inr h)
    by_cases h_eq : q = dst
    · subst h_eq
      rcases h_dst with rfl | ⟨g, rfl⟩
      · exact absurd (Or.inl h.job) hq
      · refine .stored g d k rfl ?_ ?_ h_reg
        · simpa [vacant] using h_vacant
        · rw [h_moved, Function.update_of_ne h_ne, Function.update_self, hk]
    · exact .nothing (h_same q h_tmp h_eq)
  refine ⟨h_guarantee, h_guarantee.lasts, fun q hq hqp => h_same q ?_ ?_⟩
  · exact h_made.ne (h.fresh i i q hq)
  · rcases h_dst with rfl | ⟨g, rfl⟩
    · exact hqp
    · exact ne_of_root (tree.root i q hq).1 rfl

/-- The constructor and the destructor of a temporary file of the job. -/
theorem runs_unlink (h : tree.Task i p s) {tmp : Path Tree} (h_made : tree.Made i tmp)
    {f : Except Errno Unit → Proc Tree α}
    (hf : ∀ r s', tree.Worked i p s s' → tree.Task i p s' → tree.Runs i Q (f r) (errnoAfter e r) s') :
    tree.Runs i Q (sys (.unlinkat tmp) >>= f) e s := by
  refine runs_sys h.fresh (fun _ => rfl) fun s₁ r s₂ h₁ h_answer => ?_
  have h_task := h.undisturbed h₁
  rcases answer_unlinkat_cases s₁ tmp with ⟨x, h_error⟩ | h_ok
  · obtain ⟨rfl, rfl⟩ := Prod.mk.inj (h_error.symm.trans h_answer)
    exact ⟨.refl i s₁, hf _ s₁ (h₁.worked p) h_task⟩
  · obtain ⟨rfl, rfl⟩ := Prod.mk.inj (h_ok.symm.trans h_answer)
    obtain ⟨h_guarantee, h_worked, h_task'⟩ := h_task.own (keeps_clearName tmp) fun q hq =>
      Function.update_of_ne (h_made.ne hq) _ _
    exact ⟨h_guarantee, hf _ _ ((h₁.worked p).trans h_worked) h_task'⟩

/-- The two paths denote one file. -/
def Linked (src dst : Path Tree) (s : FileSystem Tree) : Prop :=
  ∃ r, s.names src = some r ∧ s.names dst = some r

theorem Linked.symm (h : Linked src dst s) : Linked dst src s := by
  obtain ⟨r, h_from, h_to⟩ := h
  exact ⟨r, h_to, h_from⟩

/-- It stays so. -/
theorem Linked.lasts (h : Linked src dst s) (h_job : p ∈ tree.tasks i) (h_src : End p src)
    (h_dst : End p dst) (h' : tree.Undisturbed i s s') : Linked src dst s' := by
  obtain ⟨r, h_from, h_to⟩ := h
  exact ⟨r, h_src.lasts h_job h' h_from, h_dst.lasts h_job h' h_to⟩

variable (tree) in
/-- How the scope of a temporary file ends: where it has been successful, `R` holds, and the name is gone. -/
def ScopeEnds (i : ι) (p : Path Tree) (R : FileSystem Tree → Prop) (s : FileSystem Tree) (r : Bool × Bool)
    (s' : FileSystem Tree) : Prop :=
  tree.Worked i p s s' ∧ (r.1 = true → R s') ∧ (r.2 = true → r.1 = false ∧ tree.Task i p s')

/-- **`ScopedTempFile`**, of which the job knows what its scope does. -/
theorem runs_scopedTempFile (h : tree.Task i p s) {opt : Name}
    (h_made : tree.Made i (tmpName dst opt (tree.tid i))) {R : FileSystem Tree → Prop}
    (h_R : ∀ s' s'', R s' → tree.Undisturbed i s' s'' → R s'')
    {scope : Path Tree → Proc Tree (Bool × Bool)}
    (h_scope : ∀ e₁ s₁, tree.Task i p s₁ →
      tree.Runs i (tree.ScopeEnds i p R s₁) (scope (tmpName dst opt (tree.tid i))) e₁ s₁) :
    tree.Runs i (fun b s' => tree.Worked i p s s' ∧ (b = true → R s'))
      (scopedTempFile dst opt (tree.tid i) scope) e s := by
  unfold scopedTempFile
  generalize tmpName dst opt (tree.tid i) = tmp at h_made h_scope
  refine runs_seq (P := fun _ s' => tree.Worked i p s s' ∧ tree.Task i p s') ?_ ?_
  · unfold scopedTempFileCtor
    refine runs_unlink h h_made fun r s₁ h₁ h_task => ?_
    have h_done : ∀ {e'}, tree.Runs i (fun _ s' => tree.Worked i p s s' ∧ tree.Task i p s') (pure ()) e' s₁ :=
      runs_pure h.fresh fun s' hs' => ⟨h₁.trans (hs'.worked p), h_task.undisturbed hs'⟩
    cases r with
    | ok u => exact h_done
    | error x => exact runs_getErrno (runs_ite trivial h_done)
  rintro - e₁ s₁ ⟨h₁, h_task₁⟩
  refine runs_seq (h_scope e₁ s₁ h_task₁) ?_
  rintro ⟨b, owned⟩ e₂ s₂ ⟨h₂, h_success, h_owned⟩
  cases owned with
  | false => exact runs_pure h.fresh fun s' hs' =>
      ⟨(h₁.trans h₂).trans (hs'.worked p), fun hb => h_R _ _ (h_success hb) hs'⟩
  | true =>
    -- the destructor removes the name; the scope has failed, so there is nothing that this could undo
    obtain ⟨rfl, h_task₂⟩ := h_owned rfl
    refine runs_seq (P := fun _ s' => tree.Worked i p s s') ?_ ?_
    · unfold scopedTempFileDtor
      refine runs_unlink h_task₂ h_made fun r s₃ h₃ _ => ?_
      cases r with
      | ok u => exact runs_pure h.fresh fun s' hs' => ((h₁.trans h₂).trans h₃).trans (hs'.worked p)
      | error x => trivial
    · intro _ e₃ s₃ h₃
      exact runs_pure h.fresh fun s' hs' => ⟨h₃.trans (hs'.worked p), by simp⟩

/-- The last call of `HardlinkOneFile`, where the temporary file is a link of `src`: it may be refused, fail,
find the file there already, or move it there. -/
theorem runs_move (h : tree.Task i p s) (h_src : End p src) (h_dst : End p dst) (h_ne : src ≠ dst)
    {tmp : Path Tree} (h_made : tree.Made i tmp) {k : ℕ} (hk : s.names src = some k)
    (h_tmp : s.names tmp = some k) {f : Except Errno Unit → Proc Tree (Bool × Bool)}
    (h_error : ∀ x, f (.error x) = pure (false, true)) (h_ok : f (.ok ()) = pure (true, false)) :
    tree.Runs i (tree.ScopeEnds i p (Linked src dst) s) (sys (.renameat2 tmp dst .none) >>= f) e s := by
  -- the other jobs leave the two names alone up to the call
  intro s₁ hs₁ x hx
  obtain rfl : x = none := hx
  have h₁ := undisturbed h.fresh hs₁
  have h_task₁ := h.undisturbed h₁
  have h_tmp₁ : s₁.names tmp = some k := by rw [h₁.mine tmp (Or.inr h_made), h_tmp]
  have h_src₁ : s₁.names src = some k := h_src.lasts h.job h₁ hk
  obtain ⟨d, h_reg⟩ := h_src.reg h_task₁ h_src₁
  have h_tmp_dir : s₁.isDir tmp = false := by
    rw [Bool.eq_false_iff, Ne, isDir_iff, kind?_of_names h_tmp₁, h_reg]
    simp
  have h_failed : ∀ x {e'}, tree.Runs i (tree.ScopeEnds i p (Linked src dst) s) (f (.error x)) e' s₁ := by
    intro x e'
    rw [h_error]
    exact runs_pure h.fresh fun s' hs' =>
      ⟨(h₁.worked p).trans (hs'.worked p), by simp, fun _ => ⟨rfl, h_task₁.undisturbed hs'⟩⟩
  have h_done : ∀ {e' s₂}, tree.Worked i p s₁ s₂ → Linked src dst s₂ →
      tree.Runs i (tree.ScopeEnds i p (Linked src dst) s) (f (.ok ())) e' s₂ := by
    intro e' s₂ h₂ h_linked
    rw [h_ok]
    exact runs_pure h.fresh fun s' hs' =>
      ⟨((h₁.worked p).trans h₂).trans (hs'.worked p), fun _ => h_linked.lasts h.job h_src h_dst hs', by simp⟩
  rcases h_vacant : vacant (.renameat2 tmp dst .none) s₁ with _ | _
  · rw [(machine Tree).refusing_exec_of_not h_vacant]
    exact ⟨.refl i s₁, h_failed _⟩
  rw [(machine Tree).refusing_exec h_vacant, machine_exec_none]
  obtain ⟨x, h_fails⟩ | ⟨h_same, h_moves⟩ | ⟨-, h_moves⟩ := answer_renameat2_file (b := dst) h_tmp₁ h_tmp_dir
  · rw [h_fails]
    exact ⟨.refl i s₁, h_failed x⟩
  · rw [h_moves]
    exact ⟨.refl i s₁, h_done ⟨.refl s₁, fun _ _ _ => rfl⟩ ⟨k, h_src₁, h_same⟩⟩
  · rw [h_moves]
    obtain ⟨h_step, h_moved⟩ := h_task₁.move h_dst h_made h_tmp₁ h_reg h_vacant
    have h_src_ne : src ≠ tmp := h_made.ne (h_src.not_made h_task₁)
    have h_dst_ne : dst ≠ tmp := h_made.ne (h_dst.not_made h_task₁)
    have h_names := moveName_names s₁ h_dst_ne.symm
    refine ⟨h_step, h_done h_moved ⟨k, ?_, ?_⟩⟩
    · rw [h_names, Function.update_of_ne h_src_ne, Function.update_of_ne h_ne, h_src₁]
    · rw [h_names, Function.update_of_ne h_dst_ne, Function.update_self, h_tmp₁]

/-- **`HardlinkOneFile`** for two files that were not found to be one. Where both calls succeed, the file
that was linked is where `src` was, and there it still is. -/
theorem runs_hardlinkFresh (h : tree.Task i p s) (h_src : End p src) (h_dst : End p dst) (h_ne : src ≠ dst) :
    tree.Runs i (fun b s' => tree.Worked i p s s' ∧ (b = true → Linked src dst s'))
      (hardlinkFresh (tree.tid i) src dst) e s := by
  have h_made := h_dst.made h.job
  unfold hardlinkFresh
  refine runs_scopedTempFile h h_made (fun _ _ h_linked => h_linked.lasts h.job h_src h_dst) fun e₁ s₁ h₁ => ?_
  generalize tmpName dst "of".toList (tree.tid i) = tmp at h_made
  refine runs_sys h.fresh (fun _ => rfl) fun s₂ r s₃ h₂ h_answer => ?_
  have h_task₂ := h₁.undisturbed h₂
  obtain ⟨x, h_error⟩ | ⟨k, hk, -, -, h_ok⟩ := answer_linkat_cases s₂ src tmp
  · obtain ⟨rfl, rfl⟩ := Prod.mk.inj (h_error.symm.trans h_answer)
    refine ⟨.refl i s₂, runs_pure h.fresh fun s' hs' => ⟨(h₂.worked p).trans (hs'.worked p), ?_, ?_⟩⟩ <;> simp
  obtain ⟨rfl, rfl⟩ := Prod.mk.inj (h_ok.symm.trans h_answer)
  obtain ⟨h_guarantee, h_linked, h_task₃⟩ := h_task₂.own (keeps_setName tmp k) fun q hq =>
    Function.update_of_ne (h_made.ne hq) _ _
  have h_src_ne : src ≠ tmp := h_made.ne (h_src.not_made h_task₂)
  have h_src₃ : (s₂.setName tmp k).names src = some k := by
    rw [← hk]
    exact Function.update_of_ne h_src_ne _ _
  refine ⟨h_guarantee, Machine.Safe.mono (runs_move h_task₃ h_src h_dst h_ne h_made h_src₃
    (Function.update_self _ _ _) (fun _ => rfl) rfl) fun r s' h_ends => ?_⟩
  exact ⟨((h₂.worked p).trans h_linked).trans h_ends.1, h_ends.2⟩

theorem End.stat (h : End p q) (h_task : tree.Task i p s) {st : Stat}
    (h_ok : (answer s (.fstatat q false)).1 = .ok st) : s.names q = some st.ino := by
  rcases hk : s.names q with _ | k
  · rw [answer_fstatat_missing hk] at h_ok
    cases h_ok
  · obtain ⟨d, h_reg⟩ := h.reg h_task hk
    rw [answer_fstatat_of_resolve (resolve_follow hk (by simp [h_reg]))] at h_ok
    rw [← Except.ok.inj h_ok, stat_ino]

/-- **`HardlinkOneFile`**, for the file and the repository file in one or the other direction. -/
theorem runs_hardlinkOneFile (h : tree.Task i p s) (h_src : End p src) (h_dst : End p dst) (h_ne : src ≠ dst) :
    tree.Runs i (fun b s' => tree.Worked i p s s' ∧ (b = true → Linked src dst s'))
      (hardlinkOneFile (tree.tid i) src dst) e s := by
  have h_rest : ∀ {e' s'}, tree.Undisturbed i s s' → tree.Runs i
      (fun b s' => tree.Worked i p s s' ∧ (b = true → Linked src dst s'))
      (hardlinkFresh (tree.tid i) src dst) e' s' := fun hs' =>
    (runs_hardlinkFresh (h.undisturbed hs') h_src h_dst h_ne).mono fun b s'' h' =>
      ⟨(hs'.worked p).trans h'.1, h'.2⟩
  unfold hardlinkOneFile
  refine runs_look h.fresh (fun _ => rfl) (fun _ => rfl) fun s₁ r h₁ h_from => ?_
  cases r with
  | error x => exact h_rest h₁
  | ok st1 =>
    refine runs_look h.fresh (fun _ => rfl) (fun _ => rfl) fun s₂ r h₂ h_to => ?_
    have h₁₂ := h₁.trans h₂
    cases r with
    | error x => exact h_rest h₁₂
    | ok st2 =>
      dsimp only
      split
      · next h_ino =>
        have h_names := h_src.lasts h.job h₂ (h_src.stat (h.undisturbed h₁) h_from)
        have h_linked : Linked src dst s₂ := ⟨_, h_names, by rw [h_ino, h_dst.stat (h.undisturbed h₁₂) h_to]⟩
        exact runs_pure h.fresh fun s' hs' =>
          ⟨(h₁₂.trans hs').worked p, fun _ => h_linked.lasts h.job h_src h_dst hs'⟩
      · exact h_rest h₁₂

/-! ### Deduplication -/

variable {k : ℕ}

/-- The content that is read is that of the file, if any is. -/
theorem runs_readFromFile (h : tree.Task i p s) (hk : s.names p = some k) (h_reg : (s.node k).kind = .reg d) :
    tree.Runs i (fun r s' => tree.Undisturbed i s s' ∧ ∀ buf, r = some buf → buf = d)
      (readFromFile p) e s := by
  have h_kind : ∀ {s'}, tree.Undisturbed i s s' → (s'.node k).kind = .reg d := fun hs' => by
    rw [hs'.keeps.node_of_names hk, h_reg]
  have h_names : ∀ {s'}, tree.Undisturbed i s s' → s'.names p = some k := fun hs' => by
    rw [hs'.mine p (Or.inl h.job), hk]
  unfold readFromFile
  refine runs_sys h.fresh (fun _ => rfl) fun s₁ r s₁' h₁ h_answer => ?_
  by_cases h_permits : s₁.cred.permits (s₁.node k).attr 2
  swap
  · rw [answer_openat_forbidden (h_names h₁) (h_kind h₁) h_permits] at h_answer
    obtain ⟨rfl, rfl⟩ := Prod.mk.inj h_answer
    exact ⟨.refl i s₁, trivial⟩
  rw [answer_openat_rdonly (h_names h₁) (h_kind h₁) h_permits] at h_answer
  obtain ⟨rfl, rfl⟩ := Prod.mk.inj h_answer
  refine ⟨.refl i s₁, ?_⟩
  refine runs_seq (P := fun r s' => tree.Undisturbed i s s' ∧ ∀ buf, r = some buf → buf = d) ?_ ?_
  · unfold readOpened
    refine runs_look h.fresh (fun _ => rfl) (fun _ => rfl) fun s₂ r h₂ h_stat => ?_
    have h₁₂ := h₁.trans h₂
    rw [answer_fstat] at h_stat
    obtain rfl := h_stat
    have h_size : (s₂.stat k).size = d.length := by simp [stat, h_kind h₁₂, Kind.size]
    refine runs_look h.fresh (fun _ => rfl) (fun _ => rfl) fun s₃ r h₃ h_read => ?_
    have h₁₃ := h₁₂.trans h₃
    rw [answer_read (h_kind h₁₃) (by simp)] at h_read
    obtain rfl := h_read
    refine runs_pure h.fresh fun s' hs' => ⟨h₁₃.trans hs', fun buf h_buf => ?_⟩
    rw [h_size] at h_buf
    split at h_buf
    · cases h_buf
    · next h_len =>
      obtain rfl := Option.some.inj h_buf
      rw [not_not, List.length_take] at h_len
      exact List.take_of_length_le (by omega)
  · rintro r e' s' ⟨h', h_buf⟩
    refine runs_look h.fresh (fun _ => rfl) (fun _ => rfl) fun s'' r' h'' _ => ?_
    exact runs_pure h.fresh fun t ht => ⟨(h'.trans h'').trans ht, h_buf⟩

/-- **A file is linked with the repository**, in whatever direction. -/
theorem runs_linkContent (h : tree.Task i p s) (d : Bytes) :
    tree.Runs i (fun b s' => tree.Worked i p s s' ∧ (b = true → Linked p (digestPath (sha1 d)) s'))
      (linkContent sha1 (tree.tid i) p d) e s := by
  have h_repo : End p (digestPath (sha1 d)) := Or.inr ⟨_, rfl⟩
  have h_ne : p ≠ digestPath (sha1 d) := ne_of_root (tree.root i p h.job).1 rfl
  -- the repository file replaces the task
  have h_share : ∀ {e' s'}, tree.Undisturbed i s s' → tree.Runs i
      (fun b s' => tree.Worked i p s s' ∧ (b = true → Linked p (digestPath (sha1 d)) s'))
      (hardlinkOneFile (tree.tid i) (digestPath (sha1 d)) p) e' s' := fun hs' =>
    (runs_hardlinkOneFile (h.undisturbed hs') h_repo (Or.inl rfl) h_ne.symm).mono fun b s'' h' =>
      ⟨(hs'.worked p).trans h'.1, fun hb => (h'.2 hb).symm⟩
  unfold linkContent
  rw [repoPath_eq]
  refine runs_look h.fresh (fun _ => rfl) (fun _ => rfl) fun s₁ r h₁ _ => ?_
  cases r with
  | ok st => exact h_share h₁
  | error x =>
    refine runs_getErrno (runs_ite ?_ (h_share h₁))
    -- the task becomes the repository file
    unfold linkToRepo
    rw [repoPath_eq, repoDir_eq]
    refine runs_sys h.fresh (fun _ => rfl) fun s₂ r s₃ h₂ h_answer => ?_
    have h₁₂ := h₁.trans h₂
    have h_store : ∀ {e' s'}, tree.Worked i p s s' → tree.Task i p s' → tree.Runs i
        (fun b s' => tree.Worked i p s s' ∧ (b = true → Linked p (digestPath (sha1 d)) s'))
        (hardlinkOneFile (tree.tid i) p (digestPath (sha1 d))) e' s' := fun h_worked h_task =>
      (runs_hardlinkOneFile h_task (Or.inl rfl) h_repo h_ne).mono fun b s'' h' =>
        ⟨h_worked.trans h'.1, h'.2⟩
    have h_task₂ := h.undisturbed h₁₂
    obtain ⟨x', h_error⟩ | ⟨h_free, h_ok⟩ := answer_mkdirat_cases s₂ (digestDir (sha1 d)) 0o700
    · obtain ⟨rfl, rfl⟩ := Prod.mk.inj (h_error.symm.trans h_answer)
      refine ⟨.refl i s₂, runs_getErrno (runs_ite ?_ (h_store (h₁₂.worked p) h_task₂))⟩
      exact runs_pure h.fresh fun s' hs' => ⟨(h₁₂.trans hs').worked p, by simp⟩
    · obtain ⟨rfl, rfl⟩ := Prod.mk.inj (h_ok.symm.trans h_answer)
      obtain ⟨h_step, h_worked, h_task₃⟩ := h_task₂.mkdir h_free (s₂.newInode .dir 0o700)
      exact ⟨h_step, h_store ((h₁₂.worked p).trans h_worked) h_task₃⟩

/-- **`FindOutRepoAndMaybeHardlink`.** -/
theorem runs_dedup (h : tree.Task i p s) (hk : s.names p = some k) (h_reg : (s.node k).kind = .reg d) :
    tree.Runs i (fun b s' => tree.Worked i p s s' ∧ (b = true → Linked p (digestPath (sha1 d)) s'))
      (findOutRepoAndMaybeHardlink sha1 (tree.tid i) p) e s := by
  have h_made : tree.Made i (lockName p) := Or.inl ⟨p, h.job, rfl⟩
  have h_repo : End p (digestPath (sha1 d)) := Or.inr ⟨_, rfl⟩
  unfold findOutRepoAndMaybeHardlink scopedFileLockWithDelete
  intro s₁ hs₁ x hx
  obtain rfl : x = none := hx
  have h₁ := undisturbed h.fresh hs₁
  have h_task₁ := h.undisturbed h₁
  rw [(machine Tree).refusing_exec (by rfl), machine_exec_none]
  obtain ⟨x, h_error⟩ | ⟨h_free, h_ok⟩ := answer_mkdirat_cases s₁ (lockName p) 0o700
  · -- the attempt fails, and the next one finds the same situation
    rw [h_error]
    exact ⟨.refl i s₁, fun v hv => (by cases hv)⟩
  rw [h_ok]
  change tree.Guarantee i s₁ (locked s₁ p) ∧ ∀ v, Except.ok () = Except.ok v → ∀ e', tree.Runs i _ _ e' (locked s₁ p)
  have h_other : ∀ q, ¬ tree.Made i q → (locked s₁ p).names q = s₁.names q := fun q hq =>
    locked_names_of_ne (h_made.ne hq)
  obtain ⟨h_step, h_worked, h_task₂⟩ := h_task₁.own (keeps_locked s₁ p) h_other
  refine ⟨h_step, fun v _ e' => ?_⟩
  have h₂ := (h₁.worked p).trans h_worked
  have h_names₁ : s₁.names p = some k := by rw [h₁.mine p (Or.inl h.job), hk]
  have h_names₂ := (h_other p (h.fresh i i p h.job)).trans h_names₁
  have h_reg₂ : ((locked s₁ p).node k).kind = .reg d := by
    rw [(keeps_locked s₁ p).node_of_names h_names₁, h₁.keeps.node_of_names hk, h_reg]
  -- under the lock the target is still the file that was there at the beginning
  refine runs_seq (P := fun b s' =>
    tree.Worked i p s s' ∧ (b = true → Linked p (digestPath (sha1 d)) s')) ?_ ?_
  · unfold findOutRepoLocked
    refine runs_seq (runs_readFromFile h_task₂ h_names₂ h_reg₂) ?_
    rintro r e'' s₃ ⟨h₃, h_buf⟩
    cases r with
    | none => exact runs_pure h.fresh fun s' hs' => ⟨h₂.trans ((h₃.trans hs').worked p), by simp⟩
    | some buf =>
      obtain rfl := h_buf buf rfl
      exact (runs_linkContent (h_task₂.undisturbed h₃) buf).mono fun b s' h' =>
        ⟨(h₂.trans (h₃.worked p)).trans h'.1, h'.2⟩
  · rintro b e'' s₃ ⟨h₃, h_linked⟩
    refine runs_sys h.fresh (fun _ => rfl) fun s₄ r s₅ h₄ h_answer => ?_
    -- the two names are one file, and giving back the lock does not touch them
    have h_linked₄ : b = true → Linked p (digestPath (sha1 d)) s₄ := fun hb =>
      (h_linked hb).lasts h.job (Or.inl rfl) h_repo h₄
    have h₃₄ := h₃.trans (h₄.worked p)
    obtain ⟨x, h_error⟩ | h_ok' := answer_rmdirat_cases s₄ (lockName p)
    · obtain ⟨rfl, rfl⟩ := Prod.mk.inj (h_error.symm.trans h_answer)
      exact ⟨.refl i s₄, runs_pure h.fresh fun s' hs' => ⟨h₃₄.trans (hs'.worked p), fun hb =>
        (h_linked₄ hb).lasts h.job (Or.inl rfl) h_repo hs'⟩⟩
    · obtain ⟨rfl, rfl⟩ := Prod.mk.inj (h_ok'.symm.trans h_answer)
      have h_same : ∀ q, ¬ tree.Made i q → (s₄.clearName (lockName p)).names q = s₄.names q := fun q hq =>
        Function.update_of_ne (h_made.ne hq) _ _
      obtain ⟨h_step', h_worked'⟩ := own_names h.fresh (keeps_clearName (lockName p)) h_same p
      refine ⟨h_step', runs_pure h.fresh fun s' hs' =>
        ⟨(h₃₄.trans h_worked').trans (hs'.worked p), fun hb => ?_⟩⟩
      obtain ⟨r, h_from, h_to⟩ := h_linked₄ hb
      refine Linked.lasts ⟨r, ?_, ?_⟩ h.job (Or.inl rfl) h_repo hs'
      · rw [h_same p (h.fresh i i p h.job), h_from]
      · rw [h_same _ (h_repo.not_made h), h_to]

end Task

/-! ### The tasks of a job -/

variable (tree) in
/-- Job `i` with the tasks `rest` left. -/
structure Progress (i : ι) (rest : List (Path Tree)) (s : FileSystem Tree) : Prop where
  lasts : Lasts tree.start s
  left : ∀ q ∈ rest, s.names q = tree.start.names q
  done : ∀ q ∈ tree.tasks i, q ∉ rest → ∀ k d, tree.start.names q = some k →
    (tree.start.node k).kind = .reg d → Linked q (digestPath (sha1 d)) s

theorem progress_start (i : ι) : tree.Progress i (tree.tasks i) tree.start :=
  ⟨.refl _, fun _ _ => rfl, fun _ hq h_not => absurd hq h_not⟩

theorem Progress.files {rest : List (Path Tree)} (h : tree.Progress i rest s) :
    ∀ g r, s.names (digestPath g) = some r → ∃ d, (s.node r).kind = .reg d :=
  h.lasts.files fun g r hr => by
    obtain ⟨d, h_reg, -⟩ := tree.repository g r hr
    exact ⟨d, h_reg⟩

/-- The other tasks are not concerned by what the job does for one. -/
theorem Progress.worked {rest : List (Path Tree)} (h : tree.Progress i (p :: rest) s)
    (h_tasks : ∀ q ∈ p :: rest, q ∈ tree.tasks i) (h_once : p ∉ rest) (h' : tree.Worked i p s s')
    (h_linked : ∀ k d, tree.start.names p = some k → (tree.start.node k).kind = .reg d →
      Linked p (digestPath (sha1 d)) s') : tree.Progress i rest s' where
  lasts := h.lasts.trans h'.toLasts
  left q hq := by
    have h_mem : q ∈ p :: rest := List.mem_cons_of_mem _ hq
    rw [h'.target q (h_tasks q h_mem) fun h_eq => h_once (h_eq ▸ hq), h.left q h_mem]
  done q hq h_not k d hk h_reg := by
    by_cases h_eq : q = p
    · subst h_eq
      exact h_linked k d hk h_reg
    · obtain ⟨r, h_from, h_to⟩ := h.done q hq (by simp [h_eq, h_not]) k d hk h_reg
      exact ⟨r, by rw [h'.target q hq h_eq, h_from], h'.repo _ r h_to⟩

theorem Progress.undisturbed {rest : List (Path Tree)} (h : tree.Progress i rest s)
    (h_tasks : ∀ q ∈ rest, q ∈ tree.tasks i) (h' : tree.Undisturbed i s s') :
    tree.Progress i rest s' where
  lasts := h.lasts.trans h'.toLasts
  left q hq := by rw [h'.mine q (Or.inl (h_tasks q hq)), h.left q hq]
  done q hq h_not k d hk h_reg := by
    obtain ⟨r, h_from, h_to⟩ := h.done q hq h_not k d hk h_reg
    exact ⟨r, by rw [h'.mine q (Or.inl hq), h_from], h'.repo _ r h_to⟩

/-- **A job links every task with the repository**, or ends the process. -/
theorem runs_hardlinkTreeJob (h_fresh : tree.Fresh) {rest : List (Path Tree)} (h : tree.Progress i rest s)
    (h_tasks : ∀ q ∈ rest, q ∈ tree.tasks i) (h_once : rest.Nodup) :
    tree.Runs i (fun _ s' => tree.Progress i [] s') (hardlinkTreeJob sha1 (tree.tid i) rest) e s := by
  induction rest generalizing e s with
  | nil => exact runs_pure h_fresh fun s' hs' => h.undisturbed h_tasks hs'
  | cons p rest ih =>
    have h_job : p ∈ tree.tasks i := h_tasks p List.mem_cons_self
    obtain ⟨k, d, hk, h_reg, -⟩ := tree.file i p h_job
    have h_names : s.names p = some k := by rw [h.left p List.mem_cons_self, hk]
    have h_kind : (s.node k).kind = .reg d := by rw [h.lasts.keeps.node_of_names hk, h_reg]
    have h_task : tree.Task i p s := by
      refine ⟨h_fresh, h_job, fun k' hk' => ?_, h.files⟩
      obtain rfl := Option.some.inj (h_names.symm.trans hk')
      exact ⟨d, h_kind⟩
    refine runs_seq (runs_dedup h_task h_names h_kind) ?_
    rintro b e' s' ⟨h_worked, h_linked⟩
    cases b with
    | false => trivial
    | true =>
      refine ih (h.worked h_tasks (List.nodup_cons.mp h_once).1 h_worked fun k' d' hk' h_reg' => ?_)
        (fun q hq => h_tasks q (List.mem_cons_of_mem _ hq)) (List.nodup_cons.mp h_once).2
      obtain rfl := Option.some.inj (hk.symm.trans hk')
      obtain rfl : d = d' := by simpa [h_reg] using h_reg'
      exact h_linked rfl

/-- **What the jobs have done** when they have ended, if no `renameat` has replaced a repository file. -/
theorem progress_of_finished [DecidableEq ι] (h_fresh : tree.Fresh) (err : ι → Errno)
    {c : Pool (sig Tree) ι (FileSystem Tree) Unit}
    (hr : Pool.ReachableIf (machine Tree) (fun f => f = none) vacant (tree.pool err) c)
    (h_done : ∀ i, Crew.finished (c.threads i)) (i : ι) : tree.Progress i [] c.state := by
  have h_rely : ∀ i j, i ≠ j → ∀ s s', tree.Guarantee i s s' → tree.Rely j s s' :=
    fun i _ h_ne _ _ hg => ⟨i, h_ne, hg⟩
  have h_runs : ∀ i, tree.Runs i (fun _ s' => tree.Progress i [] s')
      ((tree.pool err).threads i).prog ((tree.pool err).threads i).err (tree.pool err).state :=
    fun i => runs_hardlinkTreeJob h_fresh (progress_start i) (fun _ => id) (tree.once i)
  exact (hr.refusing .EEXIST).result Guarantee.refl h_rely h_runs (Crew.prog_of_finished (h_done i))

/-- **Start-up deduplication is complete in every run in which no `renameat` replaces a repository
file**, for any number of jobs and any distribution of the files. -/
theorem deduplicates [DecidableEq ι] (tree : Startup sha1 ι) (h_fresh : tree.Fresh) (err : ι → Errno) :
    tree.Deduplicates vacant err := by
  intro c hr h_done
  have h_progress : ∀ i, tree.Progress i [] c.state := fun i => progress_of_finished h_fresh err hr h_done i
  intro i j p q k k' d hp hq hk h_reg hk' h_reg'
  obtain ⟨r, h_p, h_repo⟩ := (h_progress i).done p hp List.not_mem_nil k d hk h_reg
  obtain ⟨r', h_q, h_repo'⟩ := (h_progress j).done q hq List.not_mem_nil k' d hk' h_reg'
  obtain rfl := Option.some.inj (h_repo.symm.trans h_repo')
  exact ⟨r, h_p, h_q, h_repo⟩

/-! ### Two files of one content -/

/-- The paths of the two files. -/
theorem twoFiles_walk : [fileA, fileB].Nodup ∧ ∀ p ∈ [fileA, fileB], p.root = .workdir ∧ p.rel ≠ [] := by
  decide

theorem twoFiles_repository (g : Bytes) (k : ℕ) (hk : Crew.twoFiles.names (digestPath g) = some k) :
    ∃ d, (Crew.twoFiles.node k).kind = .reg d ∧ id d = g := by
  rw [Crew.twoFiles_digestPath] at hk
  cases hk

/-- Two jobs, with a file of the content `x` each. -/
def twoJobs : Startup id (Fin 2) :=
  hardlinkTree Crew.twoFiles 2 Fin.val [fileA, fileB] (fun _ _ => Fin.ext) twoFiles_walk.1 twoFiles_walk.2
    twoFiles_repository

theorem fresh_twoJobs : twoJobs.Fresh := by
  intro i j p hp h_made
  refine h_made.not_clean (clean_of_no_dot ?_)
  obtain ⟨k, d, hk, -⟩ := twoJobs.file i p hp
  have h_some : (Crew.twoFiles.names p).isSome := Option.isSome_iff_exists.mpr ⟨k, hk⟩
  exact (Crew.twoFiles_dom p ((Crew.twoFiles.mem_dom p).mpr h_some)).1

theorem twoJobs_tasks : fileA ∈ twoJobs.tasks 0 ∧ fileB ∈ twoJobs.tasks 1 := by
  decide +kernel

theorem twoJobs_files : twoJobs.start.names fileA = some 2 ∧ twoJobs.start.names fileB = some 3 ∧
    (twoJobs.start.node 2).kind = .reg [120] ∧ (twoJobs.start.node 3).kind = .reg [120] := by
  decide +kernel

/-- The jobs one after the other. -/
def inTurn : List (Fin 2 × Option Fault) :=
  List.replicate 20 (0, none) ++ List.replicate 20 (1, none)

def playedInTurn : Pool (sig Tree) (Fin 2) (FileSystem Tree) Unit :=
  Pool.play (machine Tree) inTurn (twoJobs.pool fun _ => .ENOENT)

theorem deduplicates_inTurn : ∃ r, playedInTurn.state.names fileA = some r ∧
    playedInTurn.state.names fileB = some r ∧ playedInTurn.state.names (digestPath [120]) = some r := by
  have hr : Pool.ReachableIf (machine Tree) (fun f => f = none) vacant (twoJobs.pool fun _ => .ENOENT)
      playedInTurn := Pool.reachableIf_play (by decide) (by decide +kernel)
  have h_done : ∀ i, Crew.finished (playedInTurn.threads i) := by decide +kernel
  obtain ⟨h_first, h_second⟩ := twoJobs_tasks
  obtain ⟨h_fileA, h_fileB, h_regA, h_regB⟩ := twoJobs_files
  have h_complete : twoJobs.Complete playedInTurn.state :=
    deduplicates twoJobs fresh_twoJobs (fun _ => .ENOENT) playedInTurn hr h_done
  obtain ⟨r, h_nameA, h_nameB, h_repo⟩ := h_complete 0 1 fileA fileB 2 3 [120] h_first h_second h_fileA h_regA
    h_fileB h_regB
  rw [id_eq] at h_repo
  exact ⟨r, h_nameA, h_nameB, h_repo⟩

/-- The jobs in turns: both find the content missing from the repository. -/
def alternately : List (Fin 2 × Option Fault) :=
  (List.replicate 20 [(0, none), (1, none)]).flatten

def playedAlternately : Pool (sig Tree) (Fin 2) (FileSystem Tree) Unit :=
  Pool.play (machine Tree) alternately (twoJobs.pool fun _ => .ENOENT)

/-- The second file replaces the first in the repository, and the first one stays alone. -/
theorem not_deduplicates_alternately : ¬ twoJobs.Deduplicates (fun _ _ => true) fun _ => .ENOENT := by
  intro h
  have hr : Pool.ReachableIf (machine Tree) (fun f => f = none) (fun _ _ => true)
      (twoJobs.pool fun _ => .ENOENT) playedAlternately :=
    Pool.reachableIf_play (by decide) (by decide +kernel)
  have h_done : ∀ i, Crew.finished (playedAlternately.threads i) := by decide +kernel
  obtain ⟨h_first, h_second⟩ := twoJobs_tasks
  obtain ⟨h_fileA, h_fileB, h_regA, h_regB⟩ := twoJobs_files
  obtain ⟨r, h_nameA, h_nameB, -⟩ := h playedAlternately hr h_done 0 1 fileA fileB 2 3 [120] h_first h_second
    h_fileA h_regA h_fileB h_regB
  have h_ne : playedAlternately.state.names fileA ≠ playedAlternately.state.names fileB := by decide +kernel
  exact h_ne (h_nameA.trans h_nameB.symm)

end Startup

end GitlstreeFS.Cowfs
