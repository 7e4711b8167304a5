import GitlstreeFS.Cache.Concurrent

/-!
# The cache from one life of the program to the next

The files of the cache outlive the program. Each time that it is started it opens the directory (`construct`),
removes the files that have not been read for long (`gc`), and then its threads call `get`. It may end at any
moment, in the middle of any of this. The lock on the file `lock` makes the lives on one directory come one
after the other.

`gc_removes_old` says which files `Gc` removes. `lives_serve` says that in each life `get` returns what it
should, however the lives before have ended.

* `WalkFilesystem` goes through `fts`. What the calls of `fts` are going to return is given in advance, as
  what `fetch` returns is in `get`; `Walks` says what they promise of it.
* The statistics that `Gc` prints are left out.
-/

namespace GitlstreeFS.Cache

open Effect Relation
open Posix (Errno)

/-! ### `walk_filesystem.h` -/

/-- An `FTSENT`. The `fts_info` of a regular file is `FTS_F`. -/
structure FtsEntry where
  isFile : Bool
  path : Str
  name : Str
  atime : ℤ
  deriving DecidableEq, Repr

/-- What `fts_open`, the calls of `fts_read`, and `fts_close` are going to return. -/
structure Fts where
  opened : Bool
  entries : List FtsEntry
  /-- `errno`, behind the last `fts_read`. -/
  errno : Option Errno
  closed : Bool

/-- `WalkFilesystem`: the entries that the callback is given, and what is returned. -/
def walkFilesystem (f : Fts) : List FtsEntry × Bool :=
  if f.opened then (f.entries, f.errno.isNone && f.closed) else ([], false)

/-- A walk that succeeds has come to every entry. -/
theorem walkFilesystem_eq {f : Fts} (h : (walkFilesystem f).2 = true) :
    walkFilesystem f = (f.entries, true) := by
  rw [walkFilesystem] at h ⊢
  split_ifs at h ⊢
  exact Prod.ext rfl h

/-! ### `Cache::Gc` -/

/-- The condition of `Gc`: the name is as long as that of a cache file, and its last access is more than 60
days ago. -/
def FtsEntry.isOld (now : ℤ) (x : FtsEntry) : Bool :=
  let delta := now - x.atime
  x.isFile && x.name.length = 38 && 60 < ((delta.tdiv 60).tdiv 60).tdiv 24

/-- `to_delete`. -/
def toDelete (now : ℤ) (entries : List FtsEntry) : List Str :=
  (entries.filter (FtsEntry.isOld now)).map FtsEntry.path

section Methods

variable {ι : Type} (cacheDir : Str)

/-- The loop of `Gc` that removes files, and the end of `Gc`. -/
def unlinkAll : List Str → Proc ι Bool
  | [] => leave true
  | path :: paths => do
    match ← sys (.unlink path) with
    | .error _ => leave false
    | .ok _ => unlinkAll paths

/-- `Cache::Gc`. -/
def gc (i : ι) (now : ℤ) (f : Fts) : Proc ι Bool := do
  lock i
  let (entries, walked) := walkFilesystem f
  if walked then unlinkAll (toDelete now entries) else .abort

/-- `lock_file_name`. -/
def lockFileName : Str :=
  cacheDir ++ str "lock"

/-- `open` of the file `lock`, which is created if it is not there. -/
def createLockFile : Proc ι Unit := do
  match ← sys (.create (lockFileName cacheDir)) with
  | .error _ => .abort
  | .ok _ => return ()

/-- `Cache::Cache` from where the directory is there. It waits for the lock on the file, which no other life has
then. -/
def openLockFile : Proc ι Unit := do
  if cacheDir.getLast? ≠ some slash then .abort
  else
    match ← sys (.open (lockFileName cacheDir)) with
    | .ok _ => return ()
    | .error e => if e ≠ .ENOENT then .abort else createLockFile cacheDir

/-- `Cache::Cache`. -/
def construct : Proc ι Unit := do
  match ← sys (.mkdir cacheDir) with
  | .error e => if e ≠ .EEXIST then .abort else openLockFile cacheDir
  | .ok _ => openLockFile cacheDir

end Methods

/-! ### What `fts` promises -/

section Walk

variable {ι κ : Type} (resolve : Str → κ) (cacheDir : Str)

/-- The path of what is below the directory under the names `q`, as `fts` forms it. -/
def below (q : List Str) : Str :=
  cacheDir ++ (render q).tail

/-- The entries are what is below the directory: each regular file comes once. -/
structure Walks (s : World ι κ) (entries : List FtsEntry) : Prop where
  file : ∀ x ∈ entries, x.isFile → ∃ j, s.node (resolve x.path) = some (.file j)
  name : ∀ x ∈ entries, x.isFile → ∃ q n, IsPath (q ++ [n]) ∧ x.path = below cacheDir (q ++ [n]) ∧ x.name = n
  once : ∀ x ∈ entries, ∀ y ∈ entries, x.isFile → y.isFile → resolve x.path = resolve y.path → x = y
  nodup : entries.Nodup
  complete : ∀ q j, IsPath q → s.node (resolve (below cacheDir q)) = some (.file j) →
    ∃ x ∈ entries, x.isFile ∧ x.path = below cacheDir q

end Walk

/-! ### A thread that is alone -/

section Solo

variable {ι κ α : Type} [DecidableEq κ]

/-- The program `p` alone has come from `s` to `s'`, with any faults; if it has returned, with `v`. -/
def Leads (resolve : Str → κ) (p : Proc ι α) (s : World ι κ) (v : Option α) (s' : World ι κ) : Prop :=
  ∃ e c, Pool.Reachable (machine resolve) (fun _ => True) ⟨fun _ : Unit => ⟨p, e⟩, s⟩ c ∧
    (c.threads ()).prog.value? = v ∧ c.state = s'

/-- The judgment of such a program: each step is one of `G`. -/
abbrev Solo (resolve : Str → κ) (G : World ι κ → World ι κ → Prop) (Q : α → World ι κ → Prop) (p : Proc ι α)
    (e : Errno) (s : World ι κ) : Prop :=
  (machine resolve).Safe (fun _ => True) True (fun s s' => s' = s) G Q p e s

variable {resolve : Str → κ} {G : World ι κ → World ι κ → Prop} {Q : α → World ι κ → Prop} {p : Proc ι α}
  {e : Errno} {s s' : World ι κ} {i : ι}

omit [DecidableEq κ] in
/-- Nothing happens in between. -/
theorem stable_eq (s : World ι κ) : Machine.StableUnder (fun s s' : World ι κ => s' = s) (· = s) := by
  rintro s₁ s₂ rfl rfl
  rfl

/-- **What the steps amount to.** -/
theorem Leads.spec {v : Option α} (h : Leads resolve p s v s') (h_refl : ∀ s, G s s)
    (h_trans : ∀ s₁ s₂ s₃, G s₁ s₂ → G s₂ s₃ → G s₁ s₃) (h_safe : ∀ e, Solo resolve G Q p e s) :
    G s s' ∧ ∀ a ∈ v, Q a s' := by
  obtain ⟨e, c, h_reach, rfl, rfl⟩ := h
  -- there is no other thread
  have h_alone (i j : Unit) (h_ne : i ≠ j) (s s' : World ι κ) (_ : G s s') : s' = s := absurd rfl h_ne
  have h_steps : G s c.state := Pool.Reachable.invariant (fun _ => h_refl) h_alone h_reach
    (fun _ => h_safe e) (fun _ s₁ s₂ h₁ h₂ => h_trans s s₁ s₂ h₁ h₂) (h_refl s)
  refine ⟨h_steps, fun a h_a => ?_⟩
  exact Pool.Reachable.result (fun _ => h_refl) h_alone h_reach (fun _ => h_safe e)
    (Prog.eq_ret_of_value? h_a)

theorem solo_sys {c : Op ι} {k : Except Errno c.Val → Proc ι α}
    (hk : ∀ f, G s (exec resolve f c s).2 ∧
      ∀ e', Solo resolve G Q (k (exec resolve f c s).1) e' (exec resolve f c s).2) :
    Solo resolve G Q (sys c >>= k) e s := by
  refine Machine.safe_call (stable_eq s) rfl ?_
  rintro s rfl f -
  exact ⟨(hk f).1, (hk f).2 _⟩

/-- A system call other than `write`: it fails, or does what it should. -/
theorem solo_call {c : Op ι} {k : Except Errno c.Val → Proc ι α} {r : Except Errno c.Val}
    (h_run : c.run resolve s = (r, s')) (hc : ∀ fd data, c ≠ .write fd data) (h_refl : G s s)
    (h_error : ∀ x e', Solo resolve G Q (k (.error x)) e' s) (h_step : G s s')
    (hk : ∀ e', Solo resolve G Q (k r) e' s') : Solo resolve G Q (sys c >>= k) e s := by
  refine solo_sys fun f => ?_
  have h_cases : (∃ x, exec resolve f c s = (.error x, s)) ∨ exec resolve f c s = c.run resolve s :=
    exec_cases hc f
  obtain ⟨x, h_eq⟩ | h_eq := h_cases
  · rw [h_eq]
    exact ⟨h_refl, h_error x⟩
  · rw [h_eq, h_run]
    exact ⟨h_step, hk⟩

/-- The end of the section in which the mutex is held. -/
theorem solo_leave {a : α} (h_step : G s { s with holder := none }) (hQ : Q a { s with holder := none }) :
    Solo resolve G Q (leave a) e s := by
  rw [leave, always, bind_assoc]
  refine solo_sys fun f => ?_
  rw [exec_of_not_isSysCall rfl]
  exact ⟨h_step, fun e' => Machine.safe_ret (stable_eq _) rfl fun _ h => h ▸ hQ⟩

/-- The mutex is free. -/
theorem solo_lock {k : Unit → Proc ι α} (h : s.holder = none) (h_step : G s { s with holder := some i })
    (hk : ∀ e', Solo resolve G Q (k ()) e' { s with holder := some i }) :
    Solo resolve G Q (lock i >>= k) e s := by
  refine Machine.safe_spin (stable_eq s) rfl ?_
  rintro s rfl f -
  change G s (exec resolve f (.lock i) s).2 ∧ ∀ v, (exec resolve f (.lock i) s).1 = .ok v → ∀ e',
    Solo resolve G Q (k v) e' (exec resolve f (.lock i) s).2
  rw [exec_of_not_isSysCall rfl, Op.run, if_pos h]
  exact ⟨h_step, fun v _ e' => hk e'⟩

end Solo

/-! ### What `Gc` removes -/

section Collect

variable {ι κ : Type} {resolve : Str → κ} {cacheDir : Str} {blob : Str → Str} {now : ℤ}
  {entries : List FtsEntry} {s s' s₁ s₂ s₃ : World ι κ} {i : ι} {e : Errno} {f : Fts} {x : FtsEntry}

/-- Names of old files may have been removed, and nothing else has changed but the mutex. -/
structure Collects (resolve : Str → κ) (now : ℤ) (entries : List FtsEntry) (s s' : World ι κ) : Prop where
  mapped : s'.mapped = s.mapped
  addresses : s'.addresses = s.addresses
  content : s'.content = s.content
  inodes : s'.inodes = s.inodes
  node : ∀ k, s'.node k = s.node k ∨
    s'.node k = none ∧ ∃ x ∈ entries, x.isOld now = true ∧ resolve x.path = k

theorem Collects.refl (s : World ι κ) : Collects resolve now entries s s :=
  ⟨rfl, rfl, rfl, rfl, fun _ => .inl rfl⟩

theorem Collects.trans (h : Collects resolve now entries s₁ s₂) (h' : Collects resolve now entries s₂ s₃) :
    Collects resolve now entries s₁ s₃ := by
  refine ⟨h'.mapped.trans h.mapped, h'.addresses.trans h.addresses, h'.content.trans h.content,
    h'.inodes.trans h.inodes, fun k => ?_⟩
  obtain h_eq | h_removed := h'.node k
  · rw [h_eq]
    exact h.node k
  · exact .inr h_removed

/-- The mutex does not matter. -/
theorem Collects.holder (s : World ι κ) (o : Option ι) :
    Collects resolve now entries s { s with holder := o } :=
  ⟨rfl, rfl, rfl, rfl, fun _ => .inl rfl⟩

/-- A cache file that is removed is absent, and the others are as they were. -/
theorem Collects.inv (h : Collects resolve now entries s s') (h_inv : Inv resolve cacheDir blob s) :
    Inv resolve cacheDir blob s' := by
  refine ⟨fun name h_hash => ?_, fun name x hx => ?_, ?_, ?_⟩
  · rw [FileOk, h.content, h.inodes]
    obtain h_eq | ⟨h_none, -⟩ := h.node (resolve (cacheFilePath cacheDir name))
    · rw [h_eq]
      exact h_inv.file name h_hash
    · exact .inl h_none
  · have h_x := h_inv.entry name x (h.mapped ▸ hx)
    exact ⟨h_x.hash, h.addresses ▸ h_x.address, h.inodes ▸ h_x.inode, h_x.size, h.content ▸ h_x.content⟩
  · rw [h.mapped]
    exact h_inv.names
  · rw [h.mapped]
    exact h_inv.addresses

variable [DecidableEq κ]

theorem Collects.unlink (s : World ι κ) (hx : x ∈ entries) (h_old : x.isOld now) :
    Collects resolve now entries s (s.setNode (resolve x.path) none) := by
  refine ⟨rfl, rfl, rfl, rfl, fun k => ?_⟩
  by_cases hk : k = resolve x.path
  · subst hk
    exact .inr ⟨s.setNode_self _ _, x, hx, h_old, rfl⟩
  · exact .inl (s.setNode_of_ne _ hk)

theorem mem_toDelete {path : Str} :
    path ∈ toDelete now entries ↔ ∃ x ∈ entries, x.isOld now = true ∧ x.path = path := by
  simp [toDelete, and_assoc]

omit [DecidableEq κ] in
/-- The last access to an old file was 61 days ago, or before. -/
theorem isOld_iff : x.isOld now = true ↔ x.isFile = true ∧ x.name.length = 38 ∧ 61 * 86400 ≤ now - x.atime := by
  -- the division rounds towards zero, which is down for what is not negative
  have h_nat (n : ℕ) : (((n : ℤ).tdiv 60).tdiv 60).tdiv 24 = (n / 60 / 60 / 24 : ℕ) := rfl
  have h_days (delta : ℤ) : 60 < ((delta.tdiv 60).tdiv 60).tdiv 24 ↔ 61 * 86400 ≤ delta := by
    obtain ⟨n, rfl | rfl⟩ := delta.eq_nat_or_neg
    · rw [h_nat]
      omega
    · rw [Int.neg_tdiv, Int.neg_tdiv, Int.neg_tdiv, h_nat]
      omega
  simp [FtsEntry.isOld, h_days, and_assoc]

/-- `unlink` fails, or removes the name. -/
theorem unlink_cases (resolve : Str → κ) (s : World ι κ) (path : Str) :
    (∃ x, (Op.unlink (ι := ι) path).run resolve s = (.error x, s)) ∨
      (Op.unlink (ι := ι) path).run resolve s = (.ok (), s.setNode (resolve path) none) := by
  rw [Op.run, World.unlink]
  split
  · exact .inl ⟨_, rfl⟩
  · exact .inl ⟨_, rfl⟩
  · exact .inr rfl

/-- What `Gc` does from where the paths are left: it removes old files, and when it returns true, all the
paths are gone. -/
def Removes (resolve : Str → κ) (now : ℤ) (entries : List FtsEntry) (paths : List Str) (s : World ι κ)
    (r : Bool) (s' : World ι κ) : Prop :=
  s'.holder = none ∧ Collects resolve now entries s s' ∧
    (r = true → ∀ path ∈ paths, s'.node (resolve path) = none)

theorem solo_unlinkAll {paths : List Str} (h_paths : ∀ path ∈ paths, path ∈ toDelete now entries)
    (e : Errno) (s : World ι κ) :
    Solo resolve (Collects resolve now entries) (Removes resolve now entries paths s) (unlinkAll paths) e
      s := by
  induction paths generalizing e s with
  | nil => exact solo_leave (.holder s none) ⟨rfl, .holder s none, fun _ path h => absurd h List.not_mem_nil⟩
  | cons path paths ih =>
    have h_fails (x e' : Errno) : Solo resolve (Collects resolve now entries)
        (Removes resolve now entries (path :: paths) s) (leave false) e' s :=
      solo_leave (.holder s none) ⟨rfl, .holder s none, fun h_true => absurd h_true Bool.false_ne_true⟩
    obtain ⟨x, hx, h_old, rfl⟩ := mem_toDelete.mp (h_paths path List.mem_cons_self)
    obtain ⟨y, h_run⟩ | h_run := unlink_cases resolve s x.path
    · exact solo_call h_run (by simp) (.refl s) h_fails (.refl s) (h_fails y)
    · have h_step : Collects resolve now entries s (s.setNode (resolve x.path) none) := .unlink s hx h_old
      refine solo_call h_run (by simp) (.refl s) h_fails h_step fun e' => ?_
      refine (ih (fun path h => h_paths path (List.mem_cons_of_mem _ h)) e' _).mono ?_
      rintro r s' ⟨h_holder, h_rest, h_gone⟩
      refine ⟨h_holder, h_step.trans h_rest, fun h_true => List.forall_mem_cons.mpr ⟨?_, h_gone h_true⟩⟩
      -- the name that was removed first stays so
      obtain h_eq | ⟨h_none, -⟩ := h_rest.node (resolve x.path)
      · exact h_eq.trans (s.setNode_self _ _)
      · exact h_none

/-- `Gc`, from where nobody holds the mutex. -/
theorem solo_gc (h : s.holder = none) (e : Errno) :
    Solo resolve (Collects resolve now f.entries) (Removes resolve now f.entries (toDelete now f.entries) s)
      (gc i now f) e s := by
  refine solo_lock h (.holder s _) fun e' => ?_
  by_cases h_walked : (walkFilesystem f).2 = true
  · rw [walkFilesystem_eq h_walked]
    refine (solo_unlinkAll (fun _ h => h) e' _).mono ?_
    rintro r s' ⟨h_holder, h_collects, h_gone⟩
    exact ⟨h_holder, (Collects.holder s _).trans h_collects, h_gone⟩
  · dsimp only
    rw [if_neg h_walked]
    trivial

/-- **What a `Gc` has done** so far, and when it has returned. -/
theorem Leads.collects {v : Option Bool} (h : Leads resolve (gc i now f) s v s') (h_holder : s.holder = none) :
    Collects resolve now f.entries s s' ∧
      ∀ r ∈ v, Removes resolve now f.entries (toDelete now f.entries) s r s' :=
  h.spec .refl (fun _ _ _ => .trans) (solo_gc h_holder)

/-- Where no call fails, all the paths are removed. -/
theorem wp_unlinkAll {paths : List Str} (h_nodup : (paths.map resolve).Nodup)
    (h_file : ∀ path ∈ paths, ∃ j, s.node (resolve path) = some (.file j)) :
    (machine resolve).Wp (unlinkAll paths) e s fun r _ _ => r = true := by
  induction paths generalizing e s with
  | nil => exact Machine.wp_call_of_exec rfl ((Machine.wp_ret _ _ _).mpr rfl)
  | cons path paths ih =>
    obtain ⟨j, h_j⟩ := h_file path List.mem_cons_self
    have h_run : exec resolve none (.unlink (ι := ι) path) s = (.ok (), s.setNode (resolve path) none) := by
      rw [exec, Op.run, World.unlink, h_j]
    rw [List.map_cons, List.nodup_cons] at h_nodup
    refine Machine.wp_call_of_exec h_run (ih h_nodup.2 fun path' h' => ?_)
    have h_ne : resolve path' ≠ resolve path := fun h_eq =>
      h_nodup.1 (h_eq ▸ List.mem_map_of_mem h')
    obtain ⟨j', h_j'⟩ := h_file path' (List.mem_cons_of_mem _ h')
    exact ⟨j', (s.setNode_of_ne none h_ne).trans h_j'⟩

omit [DecidableEq κ] in
/-- The files to be removed stand at different places. -/
theorem Walks.nodup_toDelete (h : Walks resolve cacheDir s entries) :
    ((toDelete now entries).map resolve).Nodup := by
  rw [toDelete, List.map_map]
  refine List.Nodup.map_on (fun x hx y hy h_eq => ?_) (h.nodup.filter _)
  rw [List.mem_filter, isOld_iff] at hx hy
  exact h.once x hx.1 y hy.1 hx.2.1 hy.2.1 h_eq

/-- Where no call fails, `Gc` returns true. -/
theorem wp_gc (h_walks : Walks resolve cacheDir s f.entries) (h_holder : s.holder = none)
    (h_walked : (walkFilesystem f).2 = true) : (machine resolve).Wp (gc i now f) e s fun r _ _ => r = true := by
  have h_lock : exec resolve none (.lock i) s = (.ok (), { s with holder := some i }) := by
    rw [exec, Op.run, if_pos h_holder]
  refine Machine.wp_spin_of_exec h_lock ?_
  rw [walkFilesystem_eq h_walked]
  refine wp_unlinkAll h_walks.nodup_toDelete fun path h_path => ?_
  obtain ⟨x, hx, h_old, rfl⟩ := mem_toDelete.mp h_path
  exact h_walks.file x hx (isOld_iff.mp h_old).1

omit [DecidableEq κ] in
/-- Different names lead to different paths. -/
theorem below_inj {q q' : List Str} (h : IsPath q) (h' : IsPath q')
    (h_eq : below cacheDir q = below cacheDir q') : q = q' := by
  have h_slash {q : List Str} (h : IsPath q) : render q = slash :: (render q).tail := by
    cases q with
    | nil => exact absurd rfl h.ne_nil
    | cons n q => rfl
  refine render_inj h.isName h'.isName ?_
  rw [h_slash h, h_slash h', List.append_cancel_left h_eq]

omit [DecidableEq κ] in
/-- A file below the directory has an entry, under the last name of its path. -/
theorem Walks.exists_entry {q : List Str} {n : Str} {j : ℕ} (h : Walks resolve cacheDir s entries)
    (h_path : IsPath (q ++ [n])) (h_j : s.node (resolve (below cacheDir (q ++ [n]))) = some (.file j)) :
    ∃ x ∈ entries, x.isFile = true ∧ x.path = below cacheDir (q ++ [n]) ∧ x.name = n := by
  obtain ⟨x, hx, h_file, h_x⟩ := h.complete _ j h_path h_j
  obtain ⟨q', n', h_path', h_x', h_name⟩ := h.name x hx h_file
  obtain ⟨-, h_n⟩ := List.append_inj' (below_inj h_path h_path' (h_x.symm.trans h_x')) rfl
  exact ⟨x, hx, h_file, h_x, h_name.trans (List.cons.inj h_n).1.symm⟩

/-- A directory `c` with one cache file. -/
def oldPath : Str :=
  cacheFilePath (str "c/") (List.replicate 40 0x61)

def oldWorld : World Unit Str :=
  ⟨none, [], fun p => if p = oldPath then some (.file 0) else none, fun _ => str "x", 1, 0⟩

/-- It was read at the beginning of time. -/
def oldFts : Fts :=
  ⟨true, [⟨true, oldPath, List.replicate 38 0x61, 0⟩], none, true⟩

theorem oldPath_eq : oldPath = below (str "c/") [[0x61, 0x61], List.replicate 38 0x61] := by decide

theorem node_oldPath : oldWorld.node oldPath = some (.file 0) := by
  simp [oldWorld]

theorem walks_oldWorld : Walks id (str "c/") oldWorld oldFts.entries := by
  have h_only {x : FtsEntry} (hx : x ∈ oldFts.entries) : x = ⟨true, oldPath, List.replicate 38 0x61, 0⟩ :=
    List.mem_singleton.mp hx
  refine ⟨fun x hx _ => ?_, fun x hx _ => ?_, fun x hx y hy _ _ _ => ?_, List.nodup_singleton _,
    fun q j h_path h_node => ?_⟩
  · rw [h_only hx]
    exact ⟨0, node_oldPath⟩
  · rw [h_only hx]
    exact ⟨[[0x61, 0x61]], _, by decide, oldPath_eq, rfl⟩
  · rw [h_only hx, h_only hy]
  · refine ⟨_, List.mem_singleton_self _, rfl, ?_⟩
    by_contra h_ne
    -- there is no other file
    have h_none : oldWorld.node (below (str "c/") q) = none := if_neg (Ne.symm h_ne)
    rw [id, h_none] at h_node
    cases h_node

end Collect

/-! ### How the program begins -/

section Begin

variable {ι κ : Type} (resolve : Str → κ) (cacheDir : Str) (blob : Str → Str)

/-- The paths of the cache lead to different places. -/
structure Apart : Prop where
  separate : Separate resolve cacheDir
  directory : ∀ name, IsHash name → resolve (cacheFilePath cacheDir name) ≠ resolve cacheDir
  lockFile : ∀ name, IsHash name → resolve (cacheFilePath cacheDir name) ≠ resolve (lockFileName cacheDir)

/-- Nobody holds the mutex, nothing is mapped, and each cache file is absent or complete. -/
structure Fresh (s : World ι κ) : Prop where
  holder : s.holder = none
  mapped : s.mapped = []
  file : ∀ name, IsHash name → FileOk resolve cacheDir blob s name

/-- The program has ended, and with it the mutex and the mappings: the disk is left. -/
def World.ended (s : World ι κ) : World ι κ :=
  { s with holder := none, mapped := [] }

/-- What the constructor does: it leaves the mutex and the mappings alone, and keeps the invariant. -/
structure Constructs (s s' : World ι κ) : Prop where
  holder : s'.holder = s.holder
  mapped : s'.mapped = s.mapped
  inv : Inv resolve cacheDir blob s → Inv resolve cacheDir blob s'

variable {resolve cacheDir blob} {s s₁ s₂ s₃ : World ι κ} {e : Errno}

theorem Fresh.inv (h : Fresh resolve cacheDir blob s) : Inv resolve cacheDir blob s :=
  inv_fresh h.mapped h.file

theorem Constructs.refl (s : World ι κ) : Constructs resolve cacheDir blob s s :=
  ⟨rfl, rfl, id⟩

theorem Constructs.trans (h : Constructs resolve cacheDir blob s₁ s₂)
    (h' : Constructs resolve cacheDir blob s₂ s₃) : Constructs resolve cacheDir blob s₁ s₃ :=
  ⟨h'.holder.trans h.holder, h'.mapped.trans h.mapped, h'.inv ∘ h.inv⟩

variable [DecidableEq κ]

theorem solo_openLockFile (h : Apart resolve cacheDir) (e : Errno) (s : World ι κ) :
    Solo resolve (Constructs resolve cacheDir blob) (fun _ _ => True) (openLockFile cacheDir) e s := by
  have h_ret (e : Errno) (s : World ι κ) :
      Solo resolve (Constructs resolve cacheDir blob) (fun _ _ => True) (.ret ()) e s :=
    Machine.safe_ret (stable_eq s) rfl fun _ _ => trivial
  have h_create (x e : Errno) : Solo resolve (Constructs resolve cacheDir blob) (fun _ _ => True)
      (if x ≠ .ENOENT then .abort else createLockFile cacheDir) e s := by
    split_ifs
    · trivial
    · cases h_node : s.node (resolve (lockFileName cacheDir)) with
      | some nd =>
        exact solo_call (run_create_some h_node) (by simp) (.refl s) (fun _ _ => trivial) (.refl s)
          fun _ => trivial
      | none =>
        exact solo_call (run_create_none h_node) (by simp) (.refl s) (fun _ _ => trivial)
          ⟨rfl, rfl, fun h_inv => inv_created h_inv h.lockFile⟩ fun e' => h_ret e' _
  rw [openLockFile]
  split_ifs
  · trivial
  · cases h_node : s.node (resolve (lockFileName cacheDir)) with
    | some nd =>
      exact solo_call (run_open_some h_node) (by simp) (.refl s) h_create (.refl s) fun e' => h_ret e' s
    | none => exact solo_call (run_open_none h_node) (by simp) (.refl s) h_create (.refl s) (h_create .ENOENT)

theorem solo_construct (h : Apart resolve cacheDir) (e : Errno) (s : World ι κ) :
    Solo resolve (Constructs resolve cacheDir blob) (fun _ _ => True) (construct cacheDir) e s := by
  have h_error (x e : Errno) : Solo resolve (Constructs resolve cacheDir blob) (fun _ _ => True)
      (if x ≠ .EEXIST then .abort else openLockFile cacheDir) e s := by
    split_ifs
    · trivial
    · exact solo_openLockFile h e s
  rw [construct]
  cases h_node : s.node (resolve cacheDir) with
  | some nd => exact solo_call (run_mkdir_some h_node) (by simp) (.refl s) h_error (.refl s) (h_error .EEXIST)
  | none =>
    exact solo_call (run_mkdir_none h_node) (by simp) (.refl s) h_error
      ⟨rfl, rfl, fun h_inv => inv_setNode h_inv h.directory _⟩ fun e' => solo_openLockFile h e' _

theorem Leads.constructs {v : Option Unit} (h : Leads resolve (construct cacheDir) s v s₁)
    (h_apart : Apart resolve cacheDir) : Constructs resolve cacheDir blob s s₁ :=
  (h.spec .refl (fun _ _ _ => .trans) fun e => solo_construct h_apart e s).1

/-- `Gc` has returned, with whatever value, and the threads begin with `s'`. -/
def Starts (resolve : Str → κ) (cacheDir : Str) (s s' : World ι κ) : Prop :=
  ∃ s₁ i now f r, Leads resolve (construct (ι := ι) cacheDir) s (some ()) s₁ ∧
    Walks resolve cacheDir s₁ f.entries ∧ Leads resolve (gc i now f) s₁ (some r) s'

/-- Where the threads begin, the mutex is free, and nothing is mapped. -/
theorem Starts.fresh (h : Starts resolve cacheDir s s₁) (h_apart : Apart resolve cacheDir)
    (h_fresh : Fresh resolve cacheDir blob s) : Fresh resolve cacheDir blob s₁ := by
  obtain ⟨s', i, now, f, r, h_construct, -, h_gc⟩ := h
  have h_constructs : Constructs resolve cacheDir blob s s' := h_construct.constructs h_apart
  have h_inv := h_constructs.inv h_fresh.inv
  obtain ⟨h_collects, h_returns⟩ := h_gc.collects (h_constructs.holder.trans h_fresh.holder)
  exact ⟨(h_returns r rfl).1, h_collects.mapped.trans (h_constructs.mapped.trans h_fresh.mapped),
    (h_collects.inv h_inv).file⟩

end Begin

/-! ### The lives of the program -/

section Lives

variable {ι κ : Type} [DecidableEq ι] [DecidableEq κ] (resolve : Str → κ) (cacheDir : Str) (blob : Str → Str)

/-- Threads that call `get`, from `s` on: as in one life, each with a name and what `fetch` returns. -/
structure Gets (s : World ι κ) (name : ι → Str) (c : Pool (sig ι) ι (World ι κ) (Option ℕ)) : Prop where
  hash : ∀ i, IsHash (name i)
  reachable : ∃ (fetch : ι → Option Str) (e : Errno), (∀ i d, fetch i = some d → d = blob (name i)) ∧
    Pool.Reachable (machine resolve) (fun _ => True) ⟨fun i => ⟨get cacheDir i (name i) (fetch i), e⟩, s⟩ c

/-- A moment in a life of the program that begins with `s`. -/
inductive Life (s : World ι κ) : World ι κ → Prop
  | constructs {v : Option Unit} {s' : World ι κ} (h : Leads resolve (construct cacheDir) s v s') : Life s s'
  | collects {s₁ s' : World ι κ} {i : ι} {now : ℤ} {f : Fts} {v : Option Bool}
      (h : Leads resolve (construct (ι := ι) cacheDir) s (some ()) s₁)
      (h_walks : Walks resolve cacheDir s₁ f.entries) (h_gc : Leads resolve (gc i now f) s₁ v s') : Life s s'
  | gets {s₁ : World ι κ} {name : ι → Str} {c : Pool (sig ι) ι (World ι κ) (Option ℕ)}
      (h : Starts resolve cacheDir s s₁) (h_gets : Gets resolve cacheDir blob s₁ name c) : Life s c.state

/-- What lives find that come one after the other, from `s₀` on. Each ends at some moment. -/
inductive Begins (s₀ : World ι κ) : World ι κ → Prop
  | first : Begins s₀ s₀
  | next {s s' : World ι κ} (h : Begins s₀ s) (h_life : Life resolve cacheDir blob s s') : Begins s₀ s'.ended

variable {resolve cacheDir blob} {s s' s₀ s₁ : World ι κ} {name : ι → Str}
  {c : Pool (sig ι) ι (World ι κ) (Option ℕ)}

/-- The threads of one life. -/
theorem Gets.spec (h : Gets resolve cacheDir blob s name c) (h_separate : Separate resolve cacheDir)
    (h_inv : Inv resolve cacheDir blob s) (h_holder : s.holder = none) :
    Inv resolve cacheDir blob c.state ∧ ∀ i r, (c.threads i).prog = .ret r →
      Result resolve cacheDir blob (name i) r c.state := by
  obtain ⟨fetch, e, h_fetch, h_reach⟩ := h.reachable
  have h_safe (i : ι) : Keeps resolve cacheDir blob i (Result resolve cacheDir blob (name i))
      (get cacheDir i (name i) (fetch i)) e s :=
    keeps_get h_separate h_inv (by rw [h_holder]; exact nofun) (h.hash i) (h_fetch i)
  have h_rely (i j : ι) (h_ne : i ≠ j) (s s' : World ι κ) (h_step : guarantee resolve cacheDir blob i s s') :
      rely resolve cacheDir blob j s s' := rely_of_guarantee h_ne h_step
  refine ⟨?_, fun i r h_ret => ?_⟩
  · exact Pool.Reachable.invariant guarantee_refl h_rely h_reach h_safe
      (fun i s s' h_inv h_step => h_step.inv h_inv) h_inv
  · exact Pool.Reachable.result guarantee_refl h_rely h_reach h_safe h_ret

/-- **A moment in a life** that begins well. -/
theorem Life.inv (h : Life resolve cacheDir blob s s') (h_apart : Apart resolve cacheDir)
    (h_fresh : Fresh resolve cacheDir blob s) : Inv resolve cacheDir blob s' := by
  cases h with
  | constructs h => exact (h.constructs h_apart).inv h_fresh.inv
  | @collects s₁ _ i now f v h h_walks h_gc =>
    have h_constructs : Constructs resolve cacheDir blob s s₁ := h.constructs h_apart
    exact (h_gc.collects (h_constructs.holder.trans h_fresh.holder)).1.inv (h_constructs.inv h_fresh.inv)
  | gets h h_gets =>
    have h_start := h.fresh h_apart h_fresh
    exact (h_gets.spec h_apart.separate h_start.inv h_start.holder).1

theorem Begins.fresh (h : Begins resolve cacheDir blob s₀ s) (h_apart : Apart resolve cacheDir)
    (h_fresh : Fresh resolve cacheDir blob s₀) : Fresh resolve cacheDir blob s := by
  induction h with
  | first => exact h_fresh
  | next _ h_life ih => exact ⟨rfl, rfl, (h_life.inv h_apart ih).file⟩

/-- **The cache outlives the program.** Of lives that come one after the other, and of which each may end at
any moment and with any calls failing, each finds the cache files absent or complete, and leaves them so at
every moment. In each, whatever threads call `get` at the same time, each pointer that it returns shows the
name it was asked for with the content of that name, and the pointers for one name are the same. -/
theorem lives_serve (h_apart : Apart resolve cacheDir) (h_fresh : Fresh resolve cacheDir blob s₀)
    (h : Begins resolve cacheDir blob s₀ s) :
    (∀ s', Life resolve cacheDir blob s s' → ∀ n, IsHash n → FileOk resolve cacheDir blob s' n) ∧
    ∀ s₁ name c, Starts resolve cacheDir s s₁ → Gets resolve cacheDir blob s₁ name c →
      (∀ i p, (c.threads i).prog = .ret (some p) →
        c.state.deref p = some (name i, (blob (name i)).length, blob (name i))) ∧
      ∀ i j p q, name i = name j → (c.threads i).prog = .ret (some p) →
        (c.threads j).prog = .ret (some q) → p = q := by
  have h_begins := h.fresh h_apart h_fresh
  refine ⟨fun s' h_life => (h_life.inv h_apart h_begins).file, fun s₁ name c h_starts h_gets => ?_⟩
  have h_start := h_starts.fresh h_apart h_begins
  obtain ⟨h_inv, h_result⟩ := h_gets.spec h_apart.separate h_start.inv h_start.holder
  refine ⟨fun i p h_ret => ?_, fun i j p q h_name h_i h_j => ?_⟩
  · obtain ⟨x, hx, rfl⟩ := (h_result i _ h_ret).2 p rfl
    exact deref_of_mem h_inv hx
  · obtain ⟨x, hx, rfl⟩ := (h_result i _ h_i).2 p rfl
    obtain ⟨y, hy, rfl⟩ := (h_result j _ h_j).2 q rfl
    have h_eq := List.inj_on_of_nodup_map h_inv.names hx hy h_name
    rw [(Prod.mk.inj h_eq).2]

/-! ### Two lives -/

/-- A program that runs alone, and in which no call fails. -/
def alone {α : Type} (p : Proc Bool α) (n : ℕ) (s : World Bool Str) : Pool (sig Bool) Unit (World Bool Str) α :=
  Pool.play (machine id) (List.replicate n ((), none)) ⟨fun _ => ⟨p, .EINVAL⟩, s⟩

theorem leads_alone {α : Type} {p : Proc Bool α} {n : ℕ} {s : World Bool Str} {a : α}
    (h : ((alone p n s).threads ()).prog.value? = some a) : Leads id p s (some a) (alone p n s).state :=
  ⟨.EINVAL, _, Pool.reachable_play (fun _ _ => trivial) _, h, rfl⟩

/-- A disk with a cache of one file, which is old. -/
def firstDisk : World Bool Str :=
  ⟨none, [], fun p => if p = oldPath then some (.file 0)
    else if p = str "c/" ∨ p = str "c/aa" then some .directory else none, fun _ => str "abc", 1, 0⟩

/-- What `fts` comes to in the first life. -/
def firstFts : Fts :=
  ⟨true, [⟨true, str "c/lock", str "lock", 5270400⟩, ⟨true, oldPath, List.replicate 38 0x61, 0⟩], none, true⟩

/-- The constructor has made the file `lock`. -/
def openedDisk : World Bool Str :=
  firstDisk.created (str "c/lock")

/-- `Gc` has removed the old file. -/
def collectedDisk : World Bool Str :=
  openedDisk.setNode oldPath none

/-- The name of a blob. -/
def newName : Str :=
  List.replicate 40 0x62

/-- Two threads ask for it. Both miss it, and one of them stores it. -/
def firstGets : Pool (sig Bool) Bool (World Bool Str) (Option ℕ) :=
  Pool.play (machine id) raceSchedule
    ⟨fun i => ⟨get (str "c/") i newName (some (str "abc")), .EINVAL⟩, collectedDisk⟩

/-- What the second life finds. -/
def secondDisk : World Bool Str :=
  firstGets.state.ended

/-- What `fts` comes to in the second life. -/
def secondFts : Fts :=
  ⟨true, [⟨true, str "c/lock", str "lock", 5270400⟩,
    ⟨true, cacheFilePath (str "c/") newName, List.replicate 38 0x62, 5270400⟩], none, true⟩

/-- Two threads ask for the blob once more, and now it could not be fetched. -/
def secondGets : Pool (sig Bool) Bool (World Bool Str) (Option ℕ) :=
  Pool.play (machine id) raceSchedule ⟨fun i => ⟨get (str "c/") i newName none, .EINVAL⟩, secondDisk⟩

theorem isHash_newName : IsHash newName := by
  refine ⟨rfl, fun b hb => ?_⟩
  rw [List.eq_of_mem_replicate hb]
  exact ⟨11, rfl, by decide⟩

theorem gets_newName {s : World Bool Str} {fetch : Option Str}
    {c : Pool (sig Bool) Bool (World Bool Str) (Option ℕ)} (h_fetch : ∀ d, fetch = some d → d = str "abc")
    (h : Pool.Reachable (machine id) (fun _ => True)
      ⟨fun i => ⟨get (str "c/") i newName fetch, .EINVAL⟩, s⟩ c) :
    Gets id (str "c/") (fun _ => str "abc") s (fun _ => newName) c :=
  ⟨fun _ => isHash_newName, fun _ => fetch, .EINVAL, fun _ => h_fetch, h⟩

/-- The entries of a walk that comes to all files, each once. -/
theorem walks_of_files {s : World Bool Str} {entries : List FtsEntry} (h_nodup : entries.Nodup)
    (h_once : ∀ x ∈ entries, ∀ y ∈ entries, x.path = y.path → x = y)
    (h_name : ∀ x ∈ entries, ∃ q n, IsPath (q ++ [n]) ∧ x.path = below (str "c/") (q ++ [n]) ∧ x.name = n)
    (h_file : ∀ x ∈ entries, ∃ j, s.node x.path = some (.file j))
    (h_all : ∀ k j, s.node k = some (.file j) → ∃ x ∈ entries, x.isFile ∧ x.path = k) :
    Walks id (str "c/") s entries where
  file x hx _ := h_file x hx
  name x hx _ := h_name x hx
  once x hx y hy _ _ h_eq := h_once x hx y hy h_eq
  nodup := h_nodup
  complete _ j _ h_node := h_all _ j h_node

theorem firstDisk_not_file {k : Str} {j : ℕ} (h_ne : k ≠ oldPath) : firstDisk.node k ≠ some (.file j) := by
  intro h
  rw [firstDisk] at h
  dsimp only at h
  rw [if_neg h_ne] at h
  split_ifs at h
  cases h

theorem collectedDisk_not_file {k : Str} {j : ℕ} (h_ne : k ≠ str "c/lock") :
    collectedDisk.node k ≠ some (.file j) := by
  have h_node : collectedDisk.node = Function.update openedDisk.node oldPath none := rfl
  have h_opened : openedDisk.node = Function.update firstDisk.node (str "c/lock") (some (.file 1)) := rfl
  rw [h_node, h_opened]
  by_cases h_old : k = oldPath
  · rw [h_old, Function.update_self]
    exact (Option.some_ne_none _).symm
  · rw [Function.update_of_ne h_old, Function.update_of_ne h_ne]
    exact firstDisk_not_file h_old

/-- The file of the blob is there. Its temporary name is gone. -/
theorem secondDisk_not_file {k : Str} {j : ℕ} (h_lock : k ≠ str "c/lock")
    (h_ne : k ≠ cacheFilePath (str "c/") newName) : secondDisk.node k ≠ some (.file j) := by
  have h_node : secondDisk.node =
      Function.update (Function.update (Function.update (Function.update collectedDisk.node (str "c/bb")
        (some .directory)) (temporary (str "c/") newName) (some (.file 2))) (temporary (str "c/") newName) none)
        (cacheFilePath (str "c/") newName) (some (.file 2)) := rfl
  rw [h_node, Function.update_of_ne h_ne, Function.update_idem]
  by_cases h_temporary : k = temporary (str "c/") newName
  · rw [h_temporary, Function.update_self]
    exact (Option.some_ne_none _).symm
  · rw [Function.update_of_ne h_temporary]
    by_cases h_directory : k = str "c/bb"
    · rw [h_directory, Function.update_self]
      exact fun h_eq => Node.noConfusion (Option.some.inj h_eq)
    · rw [Function.update_of_ne h_directory]
      exact collectedDisk_not_file h_lock

theorem walks_openedDisk : Walks id (str "c/") openedDisk firstFts.entries := by
  refine walks_of_files (by decide) (by decide) ?_ ?_ fun k j h => ?_
  · simp only [firstFts, List.forall_mem_cons]
    exact ⟨⟨[], _, by decide, by decide, rfl⟩, ⟨[[0x61, 0x61]], _, by decide, oldPath_eq, rfl⟩,
      fun x hx => absurd hx List.not_mem_nil⟩
  · simp only [firstFts, List.forall_mem_cons]
    exact ⟨⟨1, rfl⟩, ⟨0, rfl⟩, fun x hx => absurd hx List.not_mem_nil⟩
  · by_contra h_none
    simp only [firstFts, List.exists_mem_cons_iff, not_or, true_and] at h_none
    have h_opened : openedDisk.node = Function.update firstDisk.node (str "c/lock") (some (.file 1)) := rfl
    rw [h_opened, Function.update_of_ne (Ne.symm h_none.1)] at h
    exact firstDisk_not_file (Ne.symm h_none.2.1) h

theorem walks_secondDisk : Walks id (str "c/") secondDisk secondFts.entries := by
  refine walks_of_files (by decide) (by decide) ?_ ?_ fun k j h => ?_
  · simp only [secondFts, List.forall_mem_cons]
    exact ⟨⟨[], _, by decide, by decide, rfl⟩, ⟨[[0x62, 0x62]], _, by decide, by decide, rfl⟩,
      fun x hx => absurd hx List.not_mem_nil⟩
  · simp only [secondFts, List.forall_mem_cons]
    exact ⟨⟨1, rfl⟩, ⟨2, rfl⟩, fun x hx => absurd hx List.not_mem_nil⟩
  · by_contra h_none
    simp only [secondFts, List.exists_mem_cons_iff, not_or, true_and] at h_none
    exact secondDisk_not_file (Ne.symm h_none.1) (Ne.symm h_none.2.1) h

theorem firstDisk_starts : Starts id (str "c/") firstDisk collectedDisk :=
  ⟨openedDisk, false, 5270400, firstFts, true, leads_alone (n := 3) (by decide +kernel), walks_openedDisk,
    leads_alone (n := 3) (by decide +kernel)⟩

/-- The file of the blob has been read lately, so that it stays. -/
theorem secondDisk_starts : Starts id (str "c/") secondDisk secondDisk :=
  ⟨secondDisk, false, 5270400, secondFts, true, leads_alone (n := 2) (by decide +kernel), walks_secondDisk,
    leads_alone (n := 2) (by decide +kernel)⟩

/-- The second life shows what the first has fetched. -/
theorem lives_serve_second :
    (∀ n, IsHash n → FileOk id (str "c/") (fun _ => str "abc") secondGets.state n) ∧
      secondGets.state.deref 1 = some (newName, 3, str "abc") := by
  have h_apart : Apart (id : Str → Str) (str "c/") := by
    refine ⟨fun p q _ _ h_eq => h_eq, fun name h_hash h_eq => ?_, fun name h_hash h_eq => ?_⟩
    · have h_length := congrArg List.length h_eq
      rw [id, length_cacheFilePath h_hash] at h_length
      simp at h_length
    · have h_length := congrArg List.length h_eq
      rw [id, length_cacheFilePath h_hash, lockFileName, id, List.length_append,
        Nat.add_left_cancel_iff] at h_length
      cases h_length
  have h_fresh : Fresh id (str "c/") (fun _ => str "abc") firstDisk := by
    refine ⟨rfl, rfl, fun name h_hash => ?_⟩
    by_cases h_old : cacheFilePath (str "c/") name = oldPath
    · exact .inr ⟨0, by rw [id, h_old]; rfl, by decide, rfl⟩
    · have h_length : (cacheFilePath (str "c/") name).length = 43 := length_cacheFilePath h_hash
      have h_directory :
          ¬ (cacheFilePath (str "c/") name = str "c/" ∨ cacheFilePath (str "c/") name = str "c/aa") := by
        rintro (h_eq | h_eq)
        all_goals
          rw [h_eq] at h_length
          cases h_length
      exact .inl ((if_neg h_old).trans (if_neg h_directory))
  have h_first : Gets id (str "c/") (fun _ => str "abc") collectedDisk (fun _ => newName) firstGets :=
    gets_newName (fun d h => (Option.some.inj h).symm) (Pool.reachable_play (fun _ _ => trivial) _)
  have h_second : Gets id (str "c/") (fun _ => str "abc") secondDisk (fun _ => newName) secondGets :=
    gets_newName (fun d h => by cases h) (Pool.reachable_play (fun _ _ => trivial) _)
  have h_ret : (secondGets.threads true).prog = .ret (some 1) := Prog.eq_ret_of_value? (by decide +kernel)
  have h_lives := lives_serve h_apart h_fresh (.next .first (.gets firstDisk_starts h_first))
  exact ⟨h_lives.1 _ (.gets secondDisk_starts h_second),
    (h_lives.2 _ _ _ secondDisk_starts h_second).1 true 1 h_ret⟩

end Lives

end GitlstreeFS.Cache
