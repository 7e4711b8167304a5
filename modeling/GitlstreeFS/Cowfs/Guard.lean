import GitlstreeFS.Cowfs.Good
import GitlstreeFS.FileUtilFaults

/-!
# The copy-on-write guard under faults

`maybeBreakHardlink` answers `true` when its caller may open the target for writing. The answer
should mean that nothing else denotes the file (`Exclusive`), whatever the system calls on the way
came to.

It does not always mean that. Two of the ten ways out of the function take an error `ENOENT` to
say that somebody removed the file, and look for it in `errno` long after the call that may have
failed: the open of the target (behind the lock), and the copy, where a `sendfile` that comes out
short fails no call and leaves the `ENOENT` with which the name of the temporary file was found
free. `Slips` says in terms of the state and of the faults to come when this happens, and
`guarded_iff` that it is the only way for the guard to be wrong.
-/

namespace GitlstreeFS.Cowfs

open Effect Posix FileSystem

variable {sha1 : Bytes → Bytes} {tid : ℕ} {w v : FileSystem Tree} {p q : Path Tree} {i : ℕ}
  {d : Bytes} {e : Errno} {fs : List (Option Fault)}

/-! ### Exclusive files -/

/-- The file does not exist, or its inode has link count one. -/
def Exclusive (w : FileSystem Tree) (p : Path Tree) : Prop :=
  ∀ i, w.names p = some i → w.nlink i = 1

theorem exclusive_iff :
    Exclusive w p ↔ ∀ i, w.names p = some i → ∀ q, w.names q = some i → q = p :=
  forall₂_congr fun _ h => w.nlink_eq_one_iff h

/-- Removing a name makes no file shared. -/
theorem Exclusive.clearName (h : Exclusive w p) (r : Path Tree) : Exclusive (w.clearName r) p := by
  rw [exclusive_iff] at h ⊢
  intro i hi q hq
  have h_of : ∀ {q'}, (w.clearName r).names q' = some i → w.names q' = some i := by
    intro q' hq'
    by_cases hr : q' = r
    · simp [hr] at hq'
    · rwa [clearName_names, Function.update_of_ne hr] at hq'
  exact h i (h_of hi) q (h_of hq)

/-- Another name than the lock shares the file. -/
def Shared (w : FileSystem Tree) (p : Path Tree) : Prop :=
  ∃ i q, w.names p = some i ∧ w.names q = some i ∧ q ≠ p ∧ q ≠ lockName p

theorem Shared.not_exclusive (h : Shared w p) : ¬ Exclusive w p := by
  obtain ⟨i, q, hi, hq, h_ne, -⟩ := h
  exact fun h_excl => h_ne (exclusive_iff.mp h_excl i hi q hq)

theorem lockName_ne (p : Path Tree) : lockName p ≠ p :=
  append_ne_self (by simp) p

theorem Shared.unlock (h : Shared w p) : Shared (w.clearName (lockName p)) p := by
  obtain ⟨i, q, hi, hq, h_ne, h_lock⟩ := h
  refine ⟨i, q, ?_, ?_, h_ne, h_lock⟩
  · rwa [clearName_names, Function.update_of_ne (lockName_ne p).symm]
  · rwa [clearName_names, Function.update_of_ne h_lock]

/-! ### When the guard slips -/

/-- The guard means what it says: if it is given, the file is exclusive. -/
def Guarded (f : Final (sig Tree) (FileSystem Tree) Fault Bool) (p : Path Tree) : Prop :=
  f.outcome = .done true → Exclusive f.state p

/-- With the target of content `d` open and the lock taken: the name of the temporary file is
found free, and the copy is given up with `ENOENT`. -/
def BreakSlips (d : Bytes) (fs : List (Option Fault)) : Prop :=
  faultErrno fs.head?.join = none ∧ (faultErrno fs.tail.head?.join).getD .ENOENT = .ENOENT ∧
    CopyCut d .ENOENT fs.tail.tail

/-- The file is shared, and either it cannot be opened and `ENOENT` is what `errno` holds once the
lock is taken, or its copy is given up with `ENOENT`. -/
def Slips (p : Path Tree) (e : Errno) (fs : List (Option Fault)) (w : FileSystem Tree) : Prop :=
  ∃ i d, w.names p = some i ∧ (w.node i).kind = .reg d ∧ w.nlink i ≠ 1 ∧
    match (machine Tree).retry (.mkdirat (lockName p) 0o700)
        (errnoAfter e (exec w fs.head?.join (.openat p .rdonly 0)).1) fs.tail w with
    | (none, _) => False
    | (some _, e', fs', _) =>
      match (exec w fs.head?.join (.openat p .rdonly 0)).1 with
      | .error _ => e' = .ENOENT
      | .ok _ => BreakSlips d fs'

/-! ### The collection of the repository file -/

/-- The calls of the collection. -/
def ReadsOrRemoves : SysCall Tree → Prop
  | .openat _ fl mode => fl = .rdonly ∧ mode = 0
  | .close _ => True
  | .fstat _ => True
  | .fstatat .. => True
  | .read .. => True
  | .unlinkat _ => True
  | _ => False

theorem exec_readsOrRemoves {f : Option Fault} {c : SysCall Tree} (hc : ReadsOrRemoves c) :
    (exec w f c).2 = w ∨ ∃ r, (exec w f c).2 = w.clearName r := by
  rcases hx : faultErrno f with _ | x
  · cases c with
    | openat r fl mode =>
      obtain ⟨rfl, rfl⟩ := hc
      rw [exec_pass hx rfl]
      rcases openat_rdonly_cases w r with ⟨x, h⟩ | ⟨i, -, -, h⟩
      · exact Or.inl (by rw [h])
      · exact Or.inl (by rw [h])
    | unlinkat r =>
      rw [exec_pass hx rfl]
      change (w.unlinkat r).2 = w ∨ ∃ r', (w.unlinkat r).2 = w.clearName r'
      unfold FileSystem.unlinkat
      split_ifs
      · exact Or.inl rfl
      · exact Or.inl rfl
      · exact Or.inr ⟨r, rfl⟩
    | read fd n =>
      refine Or.inl ?_
      rcases f with _ | ⟨x⟩ | ⟨m⟩ <;> rfl
    | close fd => exact Or.inl (by rw [exec_pass hx rfl]; rfl)
    | fstat fd => exact Or.inl (by rw [exec_pass hx rfl]; rfl)
    | fstatat r nofollow => exact Or.inl (by rw [exec_pass hx rfl]; rfl)
    | _ => exact hc.elim
  · refine Or.inl ?_
    rw [exec_fail hx fun fd n h => by simp [h, ReadsOrRemoves] at hc]

theorem calls_maybeGc (r : Path Tree) :
    (maybeGcAfterHardlinkBreakForTarget sha1 r).Calls ReadsOrRemoves := by
  have h_read : (readFromFile r).Calls ReadsOrRemoves := by
    unfold readFromFile
    refine Prog.Calls.bind ⟨⟨rfl, rfl⟩, fun _ => trivial⟩ fun fd => ?_
    rcases fd with x | fd
    · trivial
    · refine Prog.Calls.bind ?_ fun _ => ⟨trivial, fun _ => trivial⟩
      unfold readOpened
      refine Prog.Calls.bind ⟨trivial, fun _ => trivial⟩ fun st => ?_
      rcases st with x | st
      · trivial
      · refine Prog.Calls.bind ⟨trivial, fun _ => trivial⟩ fun buf => ?_
        rcases buf with x | buf <;> trivial
  have h_collect : ∀ f, (garbageCollectOneRepoFile f).Calls ReadsOrRemoves := by
    intro f
    unfold garbageCollectOneRepoFile
    refine Prog.Calls.bind ⟨trivial, fun _ => trivial⟩ fun st => ?_
    rcases st with x | st
    · trivial
    · dsimp only
      split
      · refine Prog.Calls.bind ⟨trivial, fun _ => trivial⟩ fun r => ?_
        rcases r with x | u
        · exact fun _ => trivial
        · trivial
      · trivial
  refine Prog.Calls.bind (Prog.Calls.bind h_read fun r => ?_) fun r => ?_
  · rcases r with _ | buf <;> trivial
  · rcases r with _ | f
    · trivial
    · exact h_collect f

variable (sha1 q) in
/-- Whatever its calls come to, the collection only removes names. -/
theorem exclusive_maybeGc (h : Exclusive w p) (e : Errno) (fs : List (Option Fault)) :
    Exclusive ((machine Tree).run (maybeGcAfterHardlinkBreakForTarget sha1 q) e fs w).state p := by
  refine (machine Tree).run_preserves (I := fun v => Exclusive v p) (fun f c s hc hs => ?_) (calls_maybeGc q) h
  rcases exec_readsOrRemoves (w := s) (f := f) hc with h_same | ⟨r, h_clear⟩
  · change Exclusive (exec s f c).2 p
    rwa [h_same]
  · change Exclusive (exec s f c).2 p
    rw [h_clear]
    exact hs.clearName r

/-! ### With the lock held -/

/-- What the guarded scope comes to: it slips, or keeps its word. -/
structure Decides (p : Path Tree) (slips : Prop)
    (f : Final (sig Tree) (FileSystem Tree) Fault (Bool × Bool)) : Prop where
  slipped : slips → (∃ b, f.outcome = .done (true, b)) ∧ Shared f.state p
  kept : ¬ slips → ∀ b, f.outcome = .done (true, b) → Exclusive f.state p

/-- A scope that does not answer `true` has nothing to keep. -/
theorem decides_of_not_true {f : Final (sig Tree) (FileSystem Tree) Fault (Bool × Bool)}
    (h : ∀ b, f.outcome ≠ .done (true, b)) : Decides p False f :=
  ⟨False.elim, fun _ b hb => absurd hb (h b)⟩

theorem decides_of_exclusive {f : Final (sig Tree) (FileSystem Tree) Fault (Bool × Bool)}
    (h : Exclusive f.state p) : Decides p False f :=
  ⟨False.elim, fun _ _ _ => h⟩

/-- A file of link count two or more has a name besides its own and that of its lock. -/
theorem shared_of_nlink (h_file : w.names p = some i) (h_lock : w.names (lockName p) ≠ some i)
    (h : w.nlink i ≠ 1) : Shared w p := by
  have h_two : 2 ≤ w.nlink i := by
    have := w.nlink_pos h_file
    omega
  obtain ⟨q, h_ne, hq⟩ := (w.two_le_nlink_iff h_file).mp h_two
  exact ⟨i, q, h_file, hq, h_ne, fun h => h_lock (h ▸ hq)⟩

/-- A shared file stays shared while a new name is made. -/
theorem Shared.created {target : Path Tree} {n : Inode Tree} (h : Shared w p)
    (ht : w.names target = none) (h_created : Created w target n v) : Shared v p := by
  obtain ⟨i, q, hi, hq, h_ne, h_lock⟩ := h
  have h_names : ∀ {r}, w.names r = some i → v.names r = some i := by
    intro r hr
    rw [h_created.names, Function.update_of_ne (by rintro rfl; simp [ht] at hr), hr]
  exact ⟨i, q, h_names hi, h_names hq, h_ne, h_lock⟩

/-- The new file has one name once it was moved to its place. -/
theorem exclusive_moveName {target : Path Tree} {n : Inode Tree} (ht : w.names target = none)
    (h_ne : target ≠ p) (h_created : Created w target n v) : Exclusive (v.moveName target p) p := by
  have h_names := moveName_names_of_update h_created.names ht h_ne
  rw [exclusive_iff]
  intro i hi q hq
  by_contra h_other
  rw [h_names, Function.update_self] at hi
  rw [h_names, Function.update_of_ne h_other, ← hi] at hq
  exact w.names_ne_next q (le_refl _) hq

section Break

/-- A scope that ends by removing its temporary file yields what it was to yield, or ends the
process. -/
theorem run_dtor {name : Path Tree} (r : Bool × Bool) (e : Errno) (fs : List (Option Fault))
    (w : FileSystem Tree) {o : Outcome (Bool × Bool)}
    (h : ((machine Tree).run (scopedTempFileDtor name >>= fun _ => pure r) e fs w).outcome = o) :
    o = .done r ∨ o = .aborted := by
  unfold scopedTempFileDtor at h
  rw [bind_assoc] at h
  rcases hx : exec w fs.head?.join (.unlinkat name) with ⟨x | u, w'⟩
  · rw [run_sys hx] at h
    exact Or.inr h.symm
  · rw [run_sys hx] at h
    exact Or.inl h.symm

variable {fd : OpenFile} {st : Stat}

/-- The scope of the temporary file where the copy succeeds. -/
theorem decides_copied {data : Bytes} {a : Attr} {e' : Errno} {fs' : List (Option Fault)}
    (h_run : (machine Tree).run (fileCopyInternal fd st (tmpName p "mb".toList tid)) e fs w
      = ⟨.done true, e', fs', v⟩)
    (h_tmp : w.names (tmpName p "mb".toList tid) = none)
    (h_created : Created w (tmpName p "mb".toList tid) ⟨.reg data, a⟩ v) :
    Decides p False ((machine Tree).run (breakCopied sha1 p fd st (tmpName p "mb".toList tid) >>=
      fun r => if r.2 then scopedTempFileDtor (tmpName p "mb".toList tid) >>= fun _ => pure r.1
        else pure r.1) e fs w) := by
  have h_name : v.names (tmpName p "mb".toList tid) = some w.next := by
    rw [h_created.names, Function.update_self]
  have h_dir : v.isDir (tmpName p "mb".toList tid) = false := by
    rw [Bool.eq_false_iff, Ne, isDir_iff, kind?_of_names h_name, h_created.node]
    simp
  -- the copy has a new inode
  have h_other : v.names p ≠ some w.next := by
    rw [h_created.names, Function.update_of_ne (tmpName_ne p _ tid).symm]
    exact w.names_ne_next p (le_refl _)
  -- a rename that fails leaves the object its name, so that its destructor runs
  have h_failed : ∀ e' fs', Decides p False ((machine Tree).run (do
      scopedTempFileDtor (tmpName p "mb".toList tid)
      pure (false, false)) e' fs' v) := by
    intro e' fs'
    refine decides_of_not_true fun b hb => ?_
    rcases run_dtor _ _ _ _ hb with h | h <;> simp at h
  unfold breakCopied
  rw [bind_assoc, run_seq h_run, if_pos rfl, bind_assoc]
  obtain ⟨r, h_close⟩ := run_close e' fs' v fd _
  rw [h_close, bind_assoc]
  generalize (faultErrno fs'.head?.join).getD e' = e₁
  rcases hx : faultErrno fs'.tail.head?.join with _ | x
  · rcases answer_renameat2_cases h_name h_dir h_other with ⟨x, h_rename⟩ | h_rename
    · rw [run_sys ((exec_pass hx rfl).trans h_rename)]
      exact h_failed _ _
    · rw [run_sys ((exec_pass hx rfl).trans h_rename)]
      -- the target has this inode for itself, and what is collected is not its name
      have h_excl := exclusive_maybeGc sha1 p
        (exclusive_moveName h_tmp (tmpName_ne p _ tid) h_created) (errnoAfter e₁ (.ok ()))
        fs'.tail.tail
      dsimp only
      rw [Prog.bind_eq, Prog.bind_eq, Prog.bind_assoc, Machine.run_bind]
      rcases h_gc : (machine Tree).run (maybeGcAfterHardlinkBreakForTarget sha1 p)
        (errnoAfter e₁ (.ok ())) fs'.tail.tail (v.moveName (tmpName p "mb".toList tid) p)
        with ⟨o, e₂, fs₂, w₂⟩
      rw [h_gc] at h_excl
      cases o with
      | done g => exact decides_of_exclusive h_excl
      | aborted => exact decides_of_exclusive h_excl
      | stuck => exact decides_of_exclusive h_excl
  · rw [run_sys (exec_fail hx (by simp))]
    exact h_failed _ _

/-- The scope of the temporary file. -/
theorem decides_breakTemp (h_file : w.names p = some i) (h_reg : (w.node i).kind = .reg d)
    (h_lock : w.names (lockName p) ≠ some i) (h_many : w.nlink i ≠ 1)
    (h_tmp : w.names (tmpName p "mb".toList tid) = none) (h_up : w.isDir p.parent) :
    Decides p ((faultErrno fs.head?.join).getD .ENOENT = .ENOENT ∧ CopyCut d .ENOENT fs.tail)
      ((machine Tree).run (scopedTempFile p "mb".toList tid
        (breakCopied sha1 p ⟨i, .rdonly, false⟩ (w.stat i))) e fs w) := by
  -- the constructor finds no such file, unless the call fails for another reason
  have h_unlink : ∃ x, x = (faultErrno fs.head?.join).getD .ENOENT ∧
      exec w fs.head?.join (.unlinkat (tmpName p "mb".toList tid)) = (.error x, w) := by
    rcases hx : faultErrno fs.head?.join with _ | x
    · refine ⟨_, rfl, (exec_pass hx rfl).trans ?_⟩
      rw [answer_unlinkat_missing h_tmp, missing_of_isDir (by simpa using h_up)]
      rfl
    · exact ⟨x, rfl, exec_fail hx (by simp)⟩
  obtain ⟨x, hx, h_unlink⟩ := h_unlink
  rw [← hx]
  unfold scopedTempFile scopedTempFileCtor
  rw [bind_assoc, run_sys h_unlink]
  change Decides p _ ((machine Tree).run ((if x ≠ .ENOENT then Prog.abort else pure ()) >>= _) x
    fs.tail w)
  by_cases h_enoent : x = .ENOENT
  · subst h_enoent
    rw [if_neg (by simp)]
    simp only [true_and]
    obtain ⟨b, e', fs', w', h_run, h_cut, h_made⟩ := run_fileCopyInternal
      (f := ⟨i, .rdonly, false⟩) (w.stat i) .ENOENT fs.tail h_reg (w.names_lt p i h_file)
      AccessMode.noConfusion (by simp [stat, h_reg, Kind.size]) h_tmp (by simpa using h_up)
    rw [pure_bind]
    cases b with
    | true =>
      obtain ⟨data, a, h_created⟩ := h_made.resolve_left (by simp)
      -- a copy that succeeds has not been cut
      have h_not : ¬ CopyCut d .ENOENT fs.tail := fun h => by simpa using (h_cut.mpr h).1
      rw [eq_false h_not]
      exact decides_copied h_run h_tmp h_created
    | false =>
      -- the copy failed, and the target is as it was: then `errno` decides about the answer
      have h_shared : Shared w' p := by
        have h_shared := shared_of_nlink h_file h_lock h_many
        rcases h_made with ⟨-, rfl⟩ | ⟨data, a, h_created⟩
        · exact h_shared
        · exact h_shared.created h_tmp h_created
      unfold breakCopied
      rw [bind_assoc, run_seq h_run]
      change Decides p _ ((machine Tree).run
        (pure (decide (e' = .ENOENT), true) : Proc Tree (Bool × Bool)) e' fs' w')
      rw [run_pure]
      refine ⟨fun h => ⟨⟨true, ?_⟩, h_shared⟩, fun h b hb => ?_⟩
      · rw [decide_eq_true (h_cut.mpr h).2]
      · simp only [Outcome.done.injEq, Prod.mk.injEq, decide_eq_true_eq] at hb
        exact absurd (h_cut.mp ⟨rfl, hb.1⟩) h
  · -- the name is there and cannot be removed: the process ends
    rw [if_pos h_enoent]
    simp only [h_enoent, false_and]
    exact decides_of_not_true fun b hb => by simp at hb

/-- The scope of the lock, with the target open. -/
theorem decides_breakOpened (h_file : w.names p = some i) (h_reg : (w.node i).kind = .reg d)
    (h_lock : w.names (lockName p) ≠ some i)
    (h_tmp : w.names (tmpName p "mb".toList tid) = none) (h_up : w.isDir p.parent) :
    Decides p (w.nlink i ≠ 1 ∧ BreakSlips d fs)
      ((machine Tree).run (breakOpened sha1 tid p ⟨i, .rdonly, false⟩) e fs w) := by
  have h_nlink : (w.stat i).nlink = w.nlink i := stNlink_of_not_dir (by simp [h_reg])
  have h_pos := w.nlink_pos h_file
  unfold breakOpened
  rcases hx : faultErrno fs.head?.join with _ | x
  · rw [run_sys ((exec_pass hx rfl).trans (answer_fstat _))]
    dsimp only
    rw [h_nlink, if_neg (by omega)]
    by_cases h_one : w.nlink i = 1
    · have h_excl : Exclusive w p := fun j hj => by
        obtain rfl : i = j := Option.some.inj (h_file.symm.trans hj)
        exact h_one
      rw [if_pos h_one]
      simp only [h_one, ne_eq, not_true_eq_false, false_and]
      exact decides_of_exclusive h_excl
    · rw [if_neg h_one]
      simp only [ne_eq, h_one, not_false_eq_true, true_and, BreakSlips, hx]
      exact decides_breakTemp h_file h_reg h_lock h_one h_tmp h_up
  · rw [run_sys (exec_fail hx (by simp))]
    simp only [BreakSlips, hx, reduceCtorEq, false_and, and_false]
    exact decides_of_not_true fun b hb => by simp at hb

end Break

/-! ### The whole function -/

/-- Giving back the lock removes its directory or does nothing. -/
theorem exec_unlock (w : FileSystem Tree) (p : Path Tree) (f : Option Fault) :
    ∃ r w', exec w f (.rmdirat (lockName p)) = (r, w') ∧
      (w' = w ∨ w' = w.clearName (lockName p)) := by
  rcases hx : faultErrno f with _ | x
  · rw [exec_pass hx rfl]
    change ∃ r w', w.rmdirat (lockName p) = (r, w') ∧ _
    unfold rmdirat
    split
    · exact ⟨_, w, rfl, Or.inl rfl⟩
    · split
      · exact ⟨_, w, rfl, Or.inl rfl⟩
      · split
        · exact ⟨_, w, rfl, Or.inl rfl⟩
        · exact ⟨_, _, rfl, Or.inr rfl⟩
  · exact ⟨.error x, w, exec_fail hx (by simp), Or.inl rfl⟩

/-- Neither giving back the lock nor what comes after it (`k`) changes what the scope came to. -/
theorem guarded_of_decides (slips : Prop) {scope : Proc Tree (Bool × Bool)}
    {k : Bool × Bool → Proc Tree Bool}
    (hk : ∀ a e fs w, ∃ e' fs', (machine Tree).run (k a) e fs w = ⟨.done a.1, e', fs', w⟩)
    (h : Decides p slips ((machine Tree).run scope e fs w)) :
    Guarded ((machine Tree).run ((scope >>= fun a => sys (.rmdirat (lockName p)) >>= fun _ =>
      pure a) >>= k) e fs w) p ↔ ¬ slips := by
  rw [bind_assoc, Prog.bind_eq, Machine.run_bind]
  rcases h_run : (machine Tree).run scope e fs w with ⟨o, e₁, fs₁, w₁⟩
  rw [h_run] at h
  cases o with
  | aborted =>
    -- the scope did not return, so it neither succeeded nor slipped
    refine ⟨fun _ h_slips => ?_, fun _ h_true => by simp at h_true⟩
    obtain ⟨⟨b, hb⟩, -⟩ := h.slipped h_slips
    simp at hb
  | stuck =>
    refine ⟨fun _ h_slips => ?_, fun _ h_true => by simp at h_true⟩
    obtain ⟨⟨b, hb⟩, -⟩ := h.slipped h_slips
    simp at hb
  | done a =>
    obtain ⟨r, w₂, h_unlock, h_state⟩ := exec_unlock w₁ p fs₁.head?.join
    obtain ⟨e₂, fs₂, h_rest⟩ := hk a (errnoAfter e₁ r) fs₁.tail w₂
    dsimp only
    rw [bind_assoc, run_sys h_unlock, pure_bind, h_rest]
    refine ⟨fun h_guarded h_slips => ?_, fun h_slips h_true => ?_⟩
    · -- it slipped: the inode is still shared, also if the lock is gone
      obtain ⟨⟨b, hb⟩, h_shared⟩ := h.slipped h_slips
      obtain rfl : a = (true, b) := by simpa using hb
      have h_excl : Exclusive w₂ p := h_guarded rfl
      rcases h_state with rfl | rfl
      · exact h_shared.not_exclusive h_excl
      · exact h_shared.unlock.not_exclusive h_excl
    · obtain ⟨a₁, a₂⟩ := a
      obtain rfl : a₁ = true := by simpa using h_true
      have h_excl : Exclusive w₁ p := h.kept h_slips a₂ rfl
      rcases h_state with rfl | rfl
      · exact h_excl
      · exact h_excl.clearName _

/-- Opening the target for reading changes nothing, and yields a descriptor on the file there. -/
theorem exec_open_target {f : Option Fault} {r : Except Errno OpenFile}
    (h_reg : ∀ i, w.names p = some i → ∃ d, (w.node i).kind = .reg d)
    (h_open : exec w f (.openat p .rdonly 0) = (r, v)) :
    v = w ∧ ∀ fd, r = .ok fd → ∃ i, w.names p = some i ∧ fd = ⟨i, .rdonly, false⟩ := by
  rcases hx : faultErrno f with _ | x
  · rw [exec_pass hx rfl] at h_open
    rcases openat_rdonly_cases w p with ⟨x, h⟩ | ⟨j, h_resolve, -, h⟩
    · obtain ⟨rfl, rfl⟩ := Prod.mk.inj (h.symm.trans h_open)
      exact ⟨rfl, fun fd h_ok => by simp at h_ok⟩
    · obtain ⟨rfl, rfl⟩ := Prod.mk.inj (h.symm.trans h_open)
      refine ⟨rfl, fun fd h_ok => ?_⟩
      obtain rfl := Except.ok.inj h_ok
      rcases h_file : w.names p with _ | i
      · simp [resolve_missing h_file] at h_resolve
      · obtain ⟨d, h_kind⟩ := h_reg i h_file
        rw [resolve_follow h_file (by simp [h_kind])] at h_resolve
        obtain rfl := Except.ok.inj h_resolve
        exact ⟨i, rfl, rfl⟩
  · rw [exec_fail hx (by simp)] at h_open
    obtain ⟨rfl, rfl⟩ := Prod.mk.inj h_open
    exact ⟨rfl, fun fd h_ok => by simp at h_ok⟩

/-- Taking the lock of a file does not change its link count. -/
theorem locked_nlink (h_free : w.names (lockName p) = none) (h_lt : i < w.next) :
    (locked w p).nlink i = w.nlink i := by
  refine nlink_congr fun q => ?_
  by_cases hq : q = lockName p
  · subst hq
    rw [locked_names, Function.update_self, h_free]
    simp only [Option.some.injEq, reduceCtorEq, iff_false]
    omega
  · rw [locked_names_of_ne hq]

/-- **The copy-on-write guard.** Whatever the calls come to, an answer `true` means that nothing
else denotes the target, unless `Slips`. The target is a regular file or does not exist, and the
name of the temporary file is free. -/
theorem guarded_iff (sha1 : Bytes → Bytes) (tid : ℕ) (w : FileSystem Tree) (p : Path Tree)
    (e : Errno) (fs : List (Option Fault))
    (h_reg : ∀ i, w.names p = some i → ∃ d, (w.node i).kind = .reg d)
    (h_tmp : w.names (tmpName p "mb".toList tid) = none) :
    Guarded ((machine Tree).run (maybeBreakHardlink sha1 tid p) e fs w) p ↔ ¬ Slips p e fs w := by
  rcases h_open : exec w fs.head?.join (.openat p .rdonly 0) with ⟨r, w'⟩
  obtain ⟨rfl, h_fd⟩ := exec_open_target h_reg h_open
  unfold maybeBreakHardlink Slips
  rw [run_sys h_open, h_open]
  unfold scopedFileLockWithDelete
  rw [bind_assoc, sysUntilOk_eq, Prog.bind_eq, Prog.spin_bind, Machine.run]
  simp only [Prog.ret_bind]
  rcases h_retry : (machine Tree).retry (.mkdirat (lockName p) 0o700) (errnoAfter e r) fs.tail w'
    with ⟨_ | u, e₁, fs₁, w₁⟩
  · -- the lock is never taken
    refine ⟨fun _ => ?_, fun _ h_true => by simp at h_true⟩
    rintro ⟨i, d, -, -, -, h_false⟩
    exact h_false
  obtain ⟨⟨h_free, h_up⟩, rfl⟩ := retry_lock_taken h_retry
  have h_name : (locked w' p).names p = w'.names p := locked_names_of_ne (lockName_ne p).symm
  rcases h_file : w'.names p with _ | i
  · -- there is no target, so that it cannot have been opened
    rcases r with x | fd
    · refine (guarded_of_decides False (fun a e fs w => ⟨e, fs, rfl⟩) ?_).trans
        (not_congr (by simp))
      exact decides_of_exclusive fun j hj => by simp [breakLocked, Prog.getErrno, h_name, h_file] at hj
    · obtain ⟨j, hj, -⟩ := h_fd fd rfl
      simp [h_file] at hj
  obtain ⟨d, h_kind⟩ := h_reg i h_file
  have h_lt := w'.names_lt p i h_file
  have h_nlink : (locked w' p).nlink i = w'.nlink i := locked_nlink h_free h_lt
  -- the lock is a new inode, so it is no name of the target
  have h_lock : (locked w' p).names (lockName p) ≠ some i := by
    rw [locked_names, Function.update_self, ne_eq, Option.some.injEq]
    omega
  -- `Slips` speaks of some file that is there, and this is `i`
  have h_unique : ∀ {P : ℕ → Bytes → Prop}, (∃ j d', some i = some j ∧ (w'.node j).kind = .reg d' ∧
      P j d') ↔ P i d := by
    intro P
    constructor
    · rintro ⟨j, d', hj, h_kind', h⟩
      obtain rfl := Option.some.inj hj
      obtain rfl : d = d' := by simpa [h_kind] using h_kind'
      exact h
    · exact fun h => ⟨i, d, rfl, h_kind, h⟩
  rw [h_unique, ← h_nlink]
  rcases r with x | fd
  · -- the target could not be opened; `errno` is that of the last call that failed
    refine guarded_of_decides _ (fun a e fs w => ⟨e, fs, rfl⟩) ?_
    change Decides p _ ⟨.done (decide (e₁ = .ENOENT), false), e₁, fs₁, locked w' p⟩
    refine ⟨fun h => ⟨⟨false, by rw [decide_eq_true h.2]⟩, ?_⟩, fun h b hb => ?_⟩
    · exact shared_of_nlink (h_name.trans h_file) h_lock h.1
    · simp only [Outcome.done.injEq, Prod.mk.injEq, decide_eq_true_eq] at hb
      intro j hj
      obtain rfl : i = j := Option.some.inj (h_file.symm.trans (h_name.symm.trans hj))
      exact not_not.mp fun h_many => h ⟨h_many, hb.1⟩
  · obtain ⟨j, hj, rfl⟩ := h_fd fd rfl
    obtain rfl : i = j := Option.some.inj (h_file.symm.trans hj)
    refine guarded_of_decides _ (fun a e fs w => ?_) ?_
    · dsimp only
      split
      · obtain ⟨r', h_close⟩ := run_close e fs w ⟨i, .rdonly, false⟩
          fun _ => (pure a.1 : Proc Tree Bool)
        exact ⟨_, _, h_close.trans rfl⟩
      · exact ⟨_, _, rfl⟩
    · refine decides_breakOpened (h_name.trans h_file) ?_ h_lock ?_ ?_
      · rw [(keeps_locked w' p).node i h_lt, h_kind]
      · rw [locked_names_of_ne (lockName_ne_tmpName p p (by simp [tempTags]) tid).symm, h_tmp]
      · rw [(keeps_locked w' p).isDir (locked_names_of_ne (parent_ne_of_free h_up h_free)), h_up]

/-- The `sendfile` of the copy transfers nothing. -/
def shortCopy : List (Option Fault) :=
  [none, none, none, none, none, none, some (.short 0)]

/-- The guard at one of two linked files whose copy is cut short. -/
theorem guarded_iff_twins :
    Guarded ((machine Tree).run (maybeBreakHardlink id 7 fileA) .EINVAL shortCopy
      (twins [120, 121])) fileA ↔ ¬ Slips fileA .EINVAL shortCopy (twins [120, 121]) := by
  refine guarded_iff id 7 (twins [120, 121]) fileA .EINVAL shortCopy (fun i hi => ?_)
    (by decide +kernel)
  have h_three : (twins [120, 121]).names fileA = some 3 := by decide +kernel
  obtain rfl : 3 = i := Option.some.inj (h_three.symm.trans hi)
  exact ⟨[120, 121], by decide +kernel⟩

/-- A copy that was cut short is taken for a file that somebody removed: the answer is `true`, and
`fileA` still shares its inode with `fileB` and the repository. -/
theorem shortCopy_not_guarded :
    ¬ Guarded ((machine Tree).run (maybeBreakHardlink id 7 fileA) .EINVAL shortCopy
      (twins [120, 121])) fileA := by
  intro h
  have h_true : ((machine Tree).run (maybeBreakHardlink id 7 fileA) .EINVAL shortCopy
    (twins [120, 121])).outcome = .done true := by decide +kernel
  exact absurd (h h_true 3 (by decide +kernel)) (by decide +kernel)

end GitlstreeFS.Cowfs
