import GitlstreeFS.FileUtilReturns
import GitlstreeFS.Ninjafs.Model

/-!
# The life cycle of a target

A target is loaded by the first `Open` whose run of `ninja` succeeds, and then stays as it is
(`Run.loaded`). What `Open` does if it has to run `ninja` is said by `openFile_cases`: a failure is an `EIO`,
but `ReadFromFileOrDie` ends the process where `ninja` has exited with zero and left nothing that can be read,
as it does for a phony target. So `Open` is as it should be just if this does not happen (`opensRight_iff`).
-/

namespace GitlstreeFS.Ninjafs

open Effect Posix FileSystem

variable {Root : Type} [DecidableEq Root] {target : Path Root} {build : Build Root} {s s' : State}
  {w : FileSystem Root} {p : Path Root} {e : Errno}

/-! ### Reading what has been built -/

/-- The file can be opened, it is no directory, and one `read` transfers all of it. -/
def OutputReadable (w : FileSystem Root) (p : Path Root) : Prop :=
  Openable w p ∧ ∃ d, shown w p = some d ∧ d.length ≤ maxRwCount

/-- **What `ReadFromFile` yields** of a file that can be opened. -/
theorem wp_readFromFile_shown (h : Openable w p) :
    (machine Root).Wp (readFromFile p) e w fun r _ _ => r = (shown w p).filter (·.length ≤ maxRwCount) := by
  obtain ⟨i, h_resolve, -, h_open⟩ := h.answer
  unfold readFromFile
  refine wp_sys h_open (wp_seq ?_)
  unfold readOpened
  refine wp_sys (answer_fstat _) ?_
  rw [shown, h_resolve]
  rcases hk : (w.node i).kind with data | _ | t | opens
  · have h_size : (w.stat i).size = data.length := by simp [stat, hk, Kind.size]
    refine wp_sys (answer_read hk (by simp) _) (wp_pure (wp_sys (answer_close _) (wp_pure ?_)))
    rw [h_size]
    by_cases h_length : data.length ≤ maxRwCount
    · simp [h_length, hk, Option.filter]
    · simp [h_length, hk, Option.filter, Nat.min_eq_right (Nat.le_of_not_le h_length)]
  · have h_read : answer w (.read ⟨i, .rdonly, false⟩ (w.stat i).size) = (.error .EISDIR, w) := by
      change (w.read _ _, w) = _
      simp [FileSystem.read, hk]
    exact wp_sys h_read (wp_pure (wp_sys (answer_close _) (wp_pure (by simp [hk]))))
  all_goals
    have h_size : (w.stat i).size = 0 := by simp [stat, hk, Kind.size]
    have h_read : answer w (.read ⟨i, .rdonly, false⟩ (w.stat i).size) = (.ok [], w) := by
      change (w.read _ _, w) = _
      simp [FileSystem.read, hk]
    refine wp_sys h_read (wp_pure (wp_sys (answer_close _) (wp_pure ?_)))
    rw [h_size]
    simp [hk, Option.filter]

/-- `ReadFromFileOrDie` ends the process where `ReadFromFile` does or returns `false`. -/
theorem readFromFileOrDie_outcome (p : Path Root) (e : Errno) (w : FileSystem Root) :
    (¬ OutputReadable w p ∧ ((machine Root).run (readFromFileOrDie p) e [] w).outcome = .aborted) ∨
      ∃ d, OutputReadable w p ∧ shown w p = some d
        ∧ ((machine Root).run (readFromFileOrDie p) e [] w).outcome = .done d := by
  by_cases h_open : Openable w p
  · obtain ⟨r, h_done, h_r⟩ := wp_readFromFile_shown (e := e) h_open
    have h_nil := (machine Root).run_nil_faults (readFromFile p) e w
    rcases h_first : (machine Root).run (readFromFile p) e [] w with ⟨o, e', fs', w'⟩
    rw [h_first] at h_done h_nil
    obtain rfl : o = .done r := h_done
    obtain rfl : fs' = [] := h_nil
    rw [readFromFileOrDie, Prog.bind_eq, Machine.run_bind, h_first]
    cases h_shown : (shown w p).filter (·.length ≤ maxRwCount) with
    | none =>
      obtain rfl : r = none := h_r.trans h_shown
      refine .inl ⟨?_, rfl⟩
      rintro ⟨-, d, h_d, h_length⟩
      rw [h_d] at h_shown
      exact absurd h_length (by simpa using h_shown)
    | some d =>
      obtain rfl : r = some d := h_r.trans h_shown
      obtain ⟨h_d, h_length⟩ := Option.filter_eq_some_iff.mp h_shown
      exact .inr ⟨d, ⟨h_open, d, h_d, by simpa using h_length⟩, h_d, rfl⟩
  · obtain ⟨x, hx⟩ := answer_of_not_openable h_open
    refine .inl ⟨fun h => h_open h.1, ?_⟩
    unfold readFromFileOrDie readFromFile
    rw [sys_eq, Prog.bind_eq, Prog.bind_eq, Prog.call_bind, Prog.call_bind, Machine.run_call_nil,
      machine_exec_none, hx]
    rfl

/-! ### `Open` -/

/-- The run of `ninja` builds the target: it exits with zero, and the output can be read. -/
def Build.Succeeds (build : Build Root) (target : Path Root) : Prop :=
  build.exitCode = some 0 ∧ OutputReadable build.files target

/-- If `Open` runs `ninja`, then no signal ends it, and if it exits with zero, the output can be read. -/
def Sound (target : Path Root) (s : State) : Call Root → Prop
  | .openFile build => s.buf = none → ∃ n, build.exitCode = some n ∧ (n = 0 → OutputReadable build.files target)
  | _ => True

/-- What `Open` does for a target that is not loaded. -/
theorem openFile_cases (target : Path Root) (build : Build Root) (h : s.buf = none) :
    (¬ Sound target s (.openFile build) ∧ NinjaTarget.openFile target build s = .aborted)
      ∨ (∃ n, build.exitCode = some n ∧ n ≠ 0
        ∧ NinjaTarget.openFile target build s = .done (-5, ⟨none, build.printed, s.runs + 1⟩))
      ∨ ∃ d, build.Succeeds target ∧ shown build.files target = some d
        ∧ NinjaTarget.openFile target build s = .done (0, ⟨some d, build.printed, s.runs + 1⟩) := by
  obtain ⟨buf, log, runs⟩ := s
  obtain rfl : buf = none := h
  rw [NinjaTarget.openFile]
  dsimp only
  cases h_exit : build.exitCode with
  | none =>
    refine .inl ⟨fun h_sound => ?_, rfl⟩
    obtain ⟨n, h_n, -⟩ := h_sound rfl
    rw [h_exit] at h_n
    cases h_n
  | some n =>
    dsimp only
    by_cases h_zero : n = 0
    · subst h_zero
      rw [if_pos rfl]
      obtain ⟨h_unreadable, h_run⟩ | ⟨d, h_readable, h_shown, h_run⟩ :=
        readFromFileOrDie_outcome target .ENOENT build.files
      · refine .inl ⟨fun h_sound => ?_, by rw [h_run]⟩
        obtain ⟨n, h_n, h_output⟩ := h_sound rfl
        rw [h_exit] at h_n
        exact h_unreadable (h_output (Option.some.inj h_n).symm)
      · exact .inr (.inr ⟨d, ⟨h_exit, h_readable⟩, h_shown, by rw [h_run]⟩)
    · rw [if_neg h_zero]
      exact .inr (.inl ⟨n, rfl, h_zero, rfl⟩)

/-- A target that is loaded is left as it is, and `ninja` is not run. -/
theorem openFile_loaded (build : Build Root) {c : Str} (h : s.buf = some c) :
    NinjaTarget.openFile target build s = .done (0, s) := by
  rw [NinjaTarget.openFile, h]

/-- What is asked of an `Open`. It returns; it returns zero just if the target is loaded behind it; if it runs
`ninja` in vain, it returns `-EIO` and loads nothing; and if the target is loaded already, it does not run
`ninja`. -/
def OpensRight (target : Path Root) (s : State) (build : Build Root) : Prop :=
  ∃ value s', NinjaTarget.openFile target build s = .done (value, s')
    ∧ (value = 0 ↔ s'.buf.isSome = true)
    ∧ (s.buf = none → ¬ build.Succeeds target → value = -5 ∧ s'.buf = none)
    ∧ (s.buf.isSome = true → s'.runs = s.runs)

/-- **`Open` is right** just if it does not run `ninja` to be ended by a signal, or to exit with zero and leave
no output that can be read. -/
theorem opensRight_iff (target : Path Root) (s : State) (build : Build Root) :
    OpensRight target s build ↔ Sound target s (.openFile build) := by
  cases h_buf : s.buf with
  | some c =>
    refine iff_of_true ⟨0, s, openFile_loaded build h_buf, by simp [h_buf], fun h_none => ?_, fun _ => rfl⟩
      fun h_none => ?_
    all_goals
      rw [h_buf] at h_none
      cases h_none
  | none =>
    obtain ⟨h_not, h_open⟩ | ⟨n, h_exit, h_n, h_open⟩ | ⟨d, h_build, -, h_open⟩ :=
      openFile_cases target build h_buf
    · refine iff_of_false ?_ h_not
      rintro ⟨value, s', h_done, -⟩
      rw [h_open] at h_done
      cases h_done
    · refine iff_of_true ⟨-5, _, h_open, by simp, fun _ _ => ⟨rfl, rfl⟩, fun h_some => ?_⟩
        fun _ => ⟨n, h_exit, fun h_zero => absurd h_zero h_n⟩
      rw [h_buf] at h_some
      cases h_some
    · refine iff_of_true ⟨0, _, h_open, by simp, fun _ h_fails => absurd h_build h_fails, fun h_some => ?_⟩
        fun _ => ⟨0, h_build.1, fun _ => h_build.2⟩
      rw [h_buf] at h_some
      cases h_some

/-! ### Runs -/

/-- What a call answers once `c` is loaded. -/
def Serves (c : Str) : Call Root → Answer → Prop
  | .openFile _, a => a = .opened 0
  | .read size offset, a =>
    a = .read (Buffer.count c size offset : ℤ) ((c.drop offset).take (Buffer.count c size offset))
  | .getattr, a => ∃ st, a = .stat st ∧ st.size = c.length

/-- No read that can be asked for leaves the content. -/
theorem readString_call (c : Str) (size : Fin 0x100000000) (offset : Fin 0x8000000000000000) :
    readString c size offset
      = some ((Buffer.count c size offset : ℤ), (c.drop offset).take (Buffer.count c size offset)) :=
  readString_eq (by omega)

/-- Every call returns, but an `Open` that is not right. -/
theorem perform_isSome_iff (target : Path Root) (s : State) (call : Call Root) :
    (call.perform target s).isSome = true ↔ Sound target s call := by
  cases call with
  | openFile build =>
    cases h_buf : s.buf with
    | some c =>
      refine iff_of_true (by rw [Call.perform, openFile_loaded build h_buf]; rfl) fun h_none => ?_
      rw [h_buf] at h_none
      cases h_none
    | none =>
      obtain ⟨h_not, h_open⟩ | ⟨n, h_exit, h_n, h_open⟩ | ⟨d, h_build, -, h_open⟩ :=
        openFile_cases target build h_buf
      · exact iff_of_false (by rw [Call.perform, h_open]; simp) h_not
      · exact iff_of_true (by rw [Call.perform, h_open]; rfl)
          fun _ => ⟨n, h_exit, fun h_zero => absurd h_zero h_n⟩
      · exact iff_of_true (by rw [Call.perform, h_open]; rfl) fun _ => ⟨0, h_build.1, fun _ => h_build.2⟩
  | read size offset =>
    refine iff_of_true ?_ trivial
    cases h_buf : s.buf with
    | none => rw [Call.perform, NinjaTarget.read, h_buf]; rfl
    | some c =>
      rw [Call.perform, NinjaTarget.read, h_buf]
      dsimp only
      rw [readString_call]
      rfl
  | getattr => exact iff_of_true rfl trivial

/-- **Step**: once loaded, a call changes nothing and serves the content. -/
theorem perform_loaded {c : Str} (h : s.buf = some c) (call : Call Root) {a : Answer}
    (h_step : call.perform target s = some (a, s')) : s' = s ∧ Serves c call a := by
  cases call with
  | openFile build =>
    rw [Call.perform, openFile_loaded build h] at h_step
    obtain ⟨rfl, rfl⟩ := Prod.mk.inj (Option.some.inj h_step)
    exact ⟨rfl, rfl⟩
  | read size offset =>
    rw [Call.perform, NinjaTarget.read, h] at h_step
    dsimp only at h_step
    rw [readString_call] at h_step
    obtain ⟨rfl, rfl⟩ := Prod.mk.inj (Option.some.inj h_step)
    exact ⟨rfl, rfl⟩
  | getattr =>
    obtain ⟨rfl, rfl⟩ := Prod.mk.inj (Option.some.inj h_step)
    exact ⟨rfl, _, rfl, by rw [NinjaTarget.getattr, h]⟩

/-- **Run**: it serves the content for ever, and `ninja` is run no more. -/
theorem Run.loaded {calls : List (Call Root × Answer)} {c : Str} (h : s.buf = some c)
    (h_run : Run target s calls s') : s' = s ∧ ∀ x ∈ calls, Serves c x.1 x.2 := by
  induction h_run with
  | nil => exact ⟨rfl, by simp⟩
  | snoc _ h_step ih =>
    obtain ⟨rfl, h_calls⟩ := ih
    obtain ⟨rfl, h_serves⟩ := perform_loaded h _ h_step
    refine ⟨rfl, fun x hx => ?_⟩
    obtain hx | hx := List.mem_append.mp hx
    · exact h_calls x hx
    · obtain rfl := List.mem_singleton.mp hx
      exact h_serves

/-- **Step**: a target is loaded by an `Open` that succeeds, with what its output shows, and by nothing else. -/
theorem perform_unloaded (h : s.buf = none) (call : Call Root) {a : Answer}
    (h_step : call.perform target s = some (a, s')) :
    (s'.buf = none ∧ a ≠ .opened 0) ∨
      ∃ build d, call = .openFile build ∧ build.Succeeds target ∧ shown build.files target = some d
        ∧ a = .opened 0 ∧ s'.buf = some d := by
  cases call with
  | openFile build =>
    obtain ⟨-, h_open⟩ | ⟨n, -, -, h_open⟩ | ⟨d, h_build, h_shown, h_open⟩ := openFile_cases target build h
    all_goals rw [Call.perform, h_open] at h_step
    · cases h_step
    · obtain ⟨rfl, rfl⟩ := Prod.mk.inj (Option.some.inj h_step)
      exact .inl ⟨rfl, by simp⟩
    · obtain ⟨rfl, rfl⟩ := Prod.mk.inj (Option.some.inj h_step)
      exact .inr ⟨build, d, rfl, h_build, h_shown, rfl, rfl⟩
  | read size offset =>
    rw [Call.perform, NinjaTarget.read, h] at h_step
    obtain ⟨rfl, rfl⟩ := Prod.mk.inj (Option.some.inj h_step)
    exact .inl ⟨h, by simp⟩
  | getattr =>
    obtain ⟨rfl, rfl⟩ := Prod.mk.inj (Option.some.inj h_step)
    exact .inl ⟨h, by simp⟩

/-- What has been loaded in a run is what a build that has succeeded has left. -/
def Loaded (target : Path Root) (calls : List (Call Root × Answer)) (s : State) : Prop :=
  match s.buf with
  | none => ∀ build, (Call.openFile build, Answer.opened 0) ∉ calls
  | some c => ∃ build, (Call.openFile build, Answer.opened 0) ∈ calls ∧ build.Succeeds target
    ∧ shown build.files target = some c

/-- **Run**: this is so behind every run. -/
theorem Run.sound {calls : List (Call Root × Answer)} {log : Str} {runs : ℕ}
    (h_run : Run target (State.initial log runs) calls s) : Loaded target calls s := by
  induction h_run with
  | nil => exact fun _ => List.not_mem_nil
  | @snoc calls s s' call a _ h_step ih =>
    rw [Loaded] at ih
    cases h_buf : s.buf with
    | some c =>
      -- the build is one of those before
      obtain ⟨rfl, -⟩ := perform_loaded h_buf call h_step
      rw [h_buf] at ih
      obtain ⟨build, h_mem, h_build⟩ := ih
      rw [Loaded, h_buf]
      exact ⟨build, List.mem_append_left _ h_mem, h_build⟩
    | none =>
      rw [h_buf] at ih
      obtain ⟨h_none, h_a⟩ | ⟨build, d, rfl, h_build, h_shown, rfl, h_d⟩ := perform_unloaded h_buf call h_step
      · rw [Loaded, h_none]
        intro build h_mem
        obtain h_mem | h_mem := List.mem_append.mp h_mem
        · exact ih build h_mem
        · exact h_a (Prod.mk.inj (List.mem_singleton.mp h_mem)).2.symm
      · rw [Loaded, h_d]
        exact ⟨build, by simp, h_build, h_shown⟩

/-- **The life cycle of a target.** Behind every run: a call returns, and an `Open` is right, just if it does
not run `ninja` to be ended by a signal, or to exit with zero and leave no output that can be read. Once the
target is loaded, with what a build has left, all calls serve that, and `ninja` is run no more. -/
theorem lifeCycle (target : Path Root) (log : Str) (runs : ℕ) {calls : List (Call Root × Answer)}
    (h : Run target (State.initial log runs) calls s) :
    (∀ call, (call.perform target s).isSome = true ↔ Sound target s call)
      ∧ (∀ build, OpensRight target s build ↔ Sound target s (.openFile build))
      ∧ Loaded target calls s
      ∧ ∀ c, s.buf = some c → ∀ later s', Run target s later s' →
        s' = s ∧ ∀ x ∈ later, Serves c x.1 x.2 :=
  ⟨perform_isSome_iff target s, opensRight_iff target s, h.sound, fun _ h_c _ _ h_later => h_later.loaded h_c⟩

/-! ### A file and a phony target -/

/-- An empty directory. -/
def noFiles : FileSystem Unit where
  names p := if p.rel = [] then some 0 else none
  dom := {⟨(), []⟩}
  node _ := ⟨.dir, ⟨0o755#12, 0, 0, 0, 0, 0, []⟩⟩
  next := 1
  cred := ⟨0, 0⟩
  now := 0
  mem_dom p := by
    rcases p with ⟨_, _ | ⟨n, ds⟩⟩ <;> simp
  names_lt p i h := by
    rcases p with ⟨_, _ | ⟨n, ds⟩⟩ <;> simp at h
    omega

/-- The target `all`. -/
def targetAll : Path Unit := ⟨(), ["all".toList]⟩

/-- A build that fails. -/
def failure : Build Unit := ⟨[110, 111], some 1, noFiles⟩

/-- A build that leaves a file of two bytes. -/
def success : Build Unit :=
  ⟨[111, 107], some 0, (noFiles.alloc ⟨.reg [104, 105], ⟨0o644#12, 0, 0, 0, 0, 0, []⟩⟩).setName targetAll 1⟩

/-- A phony target: `ninja` has nothing to do, or other things. -/
def phony : Build Unit := ⟨[111, 107], some 0, noFiles⟩

/-- A target that is built at the second attempt. -/
theorem run_secondAttempt : Run targetAll (State.initial [] 0)
    [(.getattr, .stat ⟨sIFREG ||| 0o555, 1, 4194304⟩), (.openFile failure, .opened (-5)),
      (.openFile success, .opened 0)]
    ⟨some [104, 105], [111, 107], 2⟩ :=
  (((Run.nil.snoc (by decide +kernel : _ = some (_, State.initial [] 0))).snoc
    (by decide +kernel : _ = some (_, ⟨none, [110, 111], 1⟩))).snoc (by decide +kernel))

/-- Behind it, not even a build that would end the process matters. -/
theorem lifeCycle_secondAttempt :
    OpensRight targetAll ⟨some [104, 105], [111, 107], 2⟩ phony
      ∧ Loaded targetAll [(.getattr, .stat ⟨sIFREG ||| 0o555, 1, 4194304⟩), (.openFile failure, .opened (-5)),
        (.openFile success, .opened 0)] ⟨some [104, 105], [111, 107], 2⟩ := by
  obtain ⟨-, h_right, h_loaded, -⟩ := lifeCycle targetAll [] 0 run_secondAttempt
  exact ⟨(h_right phony).mpr nofun, h_loaded⟩

/-- The phony target ends the process, when it is opened first of all. -/
theorem not_opensRight_phony :
    phony.exitCode = some 0 ∧ shown phony.files targetAll = none
      ∧ (Call.openFile phony).perform targetAll (State.initial [] 0) = none
      ∧ NinjaTarget.openFile targetAll phony (State.initial [] 0) = .aborted
      ∧ ¬ OpensRight targetAll (State.initial [] 0) phony := by
  have h_open : NinjaTarget.openFile targetAll phony (State.initial [] 0) = .aborted := by decide +kernel
  refine ⟨rfl, by decide +kernel, ?_, h_open, ?_⟩
  · rw [Call.perform, h_open]
  · rintro ⟨value, s', h_done, -⟩
    rw [h_open] at h_done
    cases h_done

end GitlstreeFS.Ninjafs
