import GitlstreeFS.FileUtilReturns

/-!
# The file utilities under faults

Runs in which any call may fail with any error and a transfer may come out short. A program
consumes the schedule of faults call by call, so what it does is a matter of the faults at the
positions of its calls.

`run_fileCopyInternal` is about the case that matters to a caller who looks at `errno`: a copy
that was given up with `ENOENT` in the error register. The register is whatever the last failing
call left there. A short `sendfile` fails no call, so it gives the copy up with the `errno` that
was there before (`CopyCut`).
-/

namespace GitlstreeFS

open Effect Posix FileSystem

variable {Root α : Type} [DecidableEq Root] {w : FileSystem Root} {p : Path Root} {i : ℕ}
  {d : Bytes} {e : Errno} {fs : List (Option Fault)}

/-! ### Single calls -/

/-- The error a fault makes a call fail with. -/
def faultErrno : Option Fault → Option Errno
  | some (.fail x) => some x
  | _ => none

/-- The call moves bytes, so that it may come out short. -/
def transfers : SysCall Root → Bool
  | .read .. => true
  | .pwrite .. => true
  | .sendfile .. => true
  | _ => false

theorem exec_fail {f : Option Fault} {x : Errno} (h : faultErrno f = some x) {c : SysCall Root}
    (hc : ∀ fd n, c ≠ .posixFallocate fd n) : exec w f c = (.error x, w) := by
  obtain rfl : f = some (.fail x) := by
    rcases f with _ | ⟨y⟩ | ⟨m⟩ <;> simp_all [faultErrno]
  cases c with
  | posixFallocate fd n => exact absurd rfl (hc fd n)
  | _ => rfl

theorem exec_pass {f : Option Fault} (h : faultErrno f = none) {c : SysCall Root}
    (hc : transfers c = false) : exec w f c = answer w c := by
  rcases f with _ | ⟨y⟩ | ⟨m⟩
  · cases c <;> rfl
  · simp [faultErrno] at h
  · cases c <;> first | rfl | simp [transfers] at hc

/-- One call of a run. -/
theorem run_sys {c : SysCall Root} {r : Except Errno c.Val} {w' : FileSystem Root}
    (h : exec w fs.head?.join c = (r, w')) (k : Except Errno c.Val → Proc Root α) :
    (machine Root).run (sys c >>= k) e fs w
      = (machine Root).run (k r) (errnoAfter e r) fs.tail w' := by
  have h_run : (machine Root).run (sys c >>= k) e fs w = (machine Root).run
      (k (exec w fs.head?.join c).1) (errnoAfter e (exec w fs.head?.join c).1) fs.tail
      (exec w fs.head?.join c).2 := rfl
  rw [h_run, h]

theorem run_pure (a : α) : (machine Root).run (pure a) e fs w = ⟨.done a, e, fs, w⟩ := rfl

/-- A sequence whose first part returns. -/
theorem run_seq {β : Type} {q : Proc Root β} {k : β → Proc Root α} {b : β} {e' : Errno}
    {fs' : List (Option Fault)} {w' : FileSystem Root}
    (h : (machine Root).run q e fs w = ⟨.done b, e', fs', w'⟩) :
    (machine Root).run (q >>= k) e fs w = (machine Root).run (k b) e' fs' w' := by
  rw [Prog.bind_eq, Machine.run_bind, h]

/-- A `close` changes nothing but `errno`. -/
theorem run_close (e : Errno) (fs : List (Option Fault)) (w : FileSystem Root) (f : OpenFile)
    (k : Except Errno Unit → Proc Root α) :
    ∃ r : Except Errno Unit,
      (machine Root).run (sys (.close f) >>= k) e fs w
        = (machine Root).run (k r) ((faultErrno fs.head?.join).getD e) fs.tail w := by
  rcases h : faultErrno fs.head?.join with _ | x
  · exact ⟨.ok (), run_sys ((exec_pass h rfl).trans (answer_close f)) k⟩
  · exact ⟨.error x, run_sys (c := .close f) (exec_fail h (by simp)) k⟩

/-- A lock that was taken could be taken, however often the call failed before. -/
theorem retry_lock_taken {e' : Errno} {fs' : List (Option Fault)} {v : Unit}
    {w' : FileSystem Root}
    (h : (machine Root).retry (.mkdirat (lockName p) 0o700) e fs w = (some v, e', fs', w')) :
    Lockable w p ∧ w' = locked w p := by
  induction fs generalizing e with
  | nil =>
    rcases retry_lock w p e with ⟨h_lock, h_retry⟩ | ⟨-, x, h_retry⟩
    · rw [h_retry] at h
      simp only [Prod.mk.injEq] at h
      exact ⟨h_lock, h.2.2.2.symm⟩
    · rw [h_retry] at h
      simp at h
  | cons f fs ih =>
    rw [Machine.retry] at h
    rcases hx : faultErrno f with _ | x
    · have h_exec : (machine Root).exec f (.mkdirat (lockName p) 0o700) w
          = answer w (.mkdirat (lockName p) 0o700) := exec_pass hx rfl
      rw [h_exec] at h
      rcases answer_mkdirat_lock w p with ⟨h_lock, h_mkdir⟩ | ⟨-, x, h_mkdir⟩
      · rw [h_mkdir] at h
        simp only [Prod.mk.injEq] at h
        exact ⟨h_lock, h.2.2.2.symm⟩
      · rw [h_mkdir] at h
        exact ih h
    · have h_exec : (machine Root).exec f (.mkdirat (lockName p) 0o700) w = (.error x, w) :=
        exec_fail hx (by simp)
      rw [h_exec] at h
      exact ih h

/-! ### `fileCopyInternal` -/

/-- A `sendfile` of a file of content `d` fails or transfers less than the whole content. -/
def CutShort (d : Bytes) : Option Fault → Prop
  | none => maxRwCount < d.length
  | some (.fail _) => True
  | some (.short m) => min m maxRwCount < d.length

/-- Of the next `n` calls one fails, and it or the `close` that follows leaves `ENOENT`. -/
def FailureLeavesENOENT : ℕ → List (Option Fault) → Prop
  | 0, _ => False
  | n + 1, fs =>
    match faultErrno fs.head?.join with
    | some x => (faultErrno fs.tail.head?.join).getD x = .ENOENT
    | none => FailureLeavesENOENT n fs.tail

/-- The faults from the `sendfile` on give the copy up with `ENOENT`. -/
def TransferCut (d : Bytes) (e : Errno) (fs : List (Option Fault)) : Prop :=
  CutShort d fs.head?.join ∧
      (faultErrno fs.tail.head?.join).getD ((faultErrno fs.head?.join).getD e) = .ENOENT ∨
    ¬ CutShort d fs.head?.join ∧ FailureLeavesENOENT 3 fs.tail

/-- The faults from the first call of `fileCopyInternal` on give the copy of a file of content
`d` up with `ENOENT`: the new file cannot be opened, or a later call fails or is cut short. -/
def CopyCut (d : Bytes) (e : Errno) (fs : List (Option Fault)) : Prop :=
  faultErrno fs.head?.join = some .ENOENT ∨
    faultErrno fs.head?.join = none ∧ TransferCut d e fs.tail.tail

theorem transferCut_of_short (h : CutShort d fs.head?.join) : TransferCut d e fs ↔
    (faultErrno fs.tail.head?.join).getD ((faultErrno fs.head?.join).getD e) = .ENOENT := by
  unfold TransferCut
  simp only [h, true_and, not_true_eq_false, false_and, or_false]

theorem transferCut_of_not_short (h : ¬ CutShort d fs.head?.join) :
    TransferCut d e fs ↔ FailureLeavesENOENT 3 fs.tail := by
  unfold TransferCut
  simp only [h, false_and, not_false_eq_true, true_and, false_or]

theorem cutShort_of_fail {f : Option Fault} {x : Errno} (h : faultErrno f = some x) :
    CutShort d f := by
  rcases f with _ | ⟨y⟩ | ⟨m⟩
  · simp [faultErrno] at h
  · trivial
  · simp [faultErrno] at h

/-- `sendfile` under a fault. -/
theorem exec_sendfile {inp : OpenFile} (out : OpenFile) (dst : Bytes)
    (hin : (w.node inp.ino).kind = .reg d)
    (hout : (w.node out.ino).kind = .reg dst) (hi : inp.access ≠ .wronly)
    (ho : out.access ≠ .rdonly) (f : Option Fault) :
    (∃ x, faultErrno f = some x ∧ exec w f (.sendfile out inp d.length) = (.error x, w)) ∨
      ∃ n d', faultErrno f = none ∧ (n ≠ d.length ↔ CutShort d f) ∧
        exec w f (.sendfile out inp d.length)
          = (.ok n, w.setNode out.ino ⟨.reg d', (w.node out.ino).attr.written w.now⟩) := by
  rcases f with _ | ⟨x⟩ | ⟨m⟩
  · refine Or.inr ⟨_, _, rfl, ?_, answer_sendfile hin hout hi ho _⟩
    simp only [CutShort, List.length_take]
    omega
  · exact Or.inl ⟨x, rfl, rfl⟩
  · refine Or.inr ⟨_, _, rfl, ?_, answer_sendfile hin hout hi ho _⟩
    simp only [CutShort, List.length_take]
    omega

/-- What a copy in progress comes to: it ends with the new file made and says whether it was
given up, `e'` and `fs'` being the error register and the faults that are left for the `close`. -/
structure CopyEnds (w : FileSystem Root) (target : Path Root) (given_up : Prop) (b : Bool)
    (e' : Errno) (fs' : List (Option Fault)) (w' : FileSystem Root) : Prop where
  created : ∃ data a, Created w target ⟨.reg data, a⟩ w'
  errno : b = false ∧ (faultErrno fs'.head?.join).getD e' = .ENOENT ↔ given_up

section Copy

variable {target : Path Root} {w₁ : FileSystem Root}

/-- One of the calls that set the attributes of the new file. -/
theorem run_setAttr {c : SysCall Root} {g : Attr → Attr} {cut : ℕ} {data : Bytes} {a : Attr}
    {k : Except Errno c.Val → Proc Root Bool} (h₁ : Created w target ⟨.reg data, a⟩ w₁)
    (hc : transfers c = false) (hc' : ∀ fd n, c ≠ .posixFallocate fd n) {v : c.Val}
    (h_answer : answer w₁ c = (.ok v, w₁.setAttr w.next g))
    (h_error : ∀ x, k (.error x) = pure false)
    (h_ok : ∀ {w₂ e₂ fs₂}, Created w target ⟨.reg data, g a⟩ w₂ → ∃ b e' fs' w',
      (machine Root).run (k (.ok v)) e₂ fs₂ w₂ = ⟨.done b, e', fs', w'⟩ ∧
        CopyEnds w target (FailureLeavesENOENT cut fs₂) b e' fs' w') :
    ∃ b e' fs' w', (machine Root).run (sys c >>= k) e fs w₁ = ⟨.done b, e', fs', w'⟩ ∧
      CopyEnds w target (FailureLeavesENOENT (cut + 1) fs) b e' fs' w' := by
  rcases h : faultErrno fs.head?.join with _ | x
  · rw [run_sys ((exec_pass h hc).trans h_answer), FailureLeavesENOENT]
    simp only [h]
    exact h_ok (h₁.setAttr g)
  · rw [run_sys (exec_fail h hc'), h_error, FailureLeavesENOENT]
    simp only [h]
    exact ⟨false, x, fs.tail, w₁, rfl, ⟨data, a, h₁⟩, by simp⟩

/-- From the `sendfile` on. -/
theorem run_fileCopyOpened {f : OpenFile} {st : Stat} {dst : Bytes} {a : Attr} (e : Errno)
    (fs : List (Option Fault)) (access : AccessMode) (append : Bool)
    (hk : (w.node f.ino).kind = .reg d) (h_lt : f.ino < w.next)
    (ha : f.access ≠ .wronly) (ho : access ≠ .rdonly) (h_size : st.size = d.length)
    (h₁ : Created w target ⟨.reg dst, a⟩ w₁) :
    ∃ b e' fs' w', (machine Root).run (fileCopyOpened f st ⟨w.next, access, append⟩) e fs w₁
        = ⟨.done b, e', fs', w'⟩ ∧
      CopyEnds w target (TransferCut d e fs.tail) b e' fs' w' := by
  unfold fileCopyOpened
  -- `posix_fallocate` returns its error, which nobody looks at
  obtain ⟨r, w₂, h_alloc, dst₂, h₂⟩ : ∃ r w₂, exec w₁ fs.head?.join
      (.posixFallocate ⟨w.next, access, append⟩ st.size) = (.ok r, w₂) ∧
        ∃ dst₂, Created w target ⟨.reg dst₂, a⟩ w₂ := by
    by_cases h_fail : ∃ x, fs.head?.join = some (.fail x)
    · obtain ⟨x, hx⟩ := h_fail
      exact ⟨some x, w₁, by rw [hx]; rfl, dst, h₁⟩
    · obtain ⟨r, hr⟩ := answer_posixFallocate (w := w₁) (f := ⟨w.next, access, append⟩) (d := dst)
        (by rw [h₁.node]) ho st.size
      -- a short transfer is no fault of this call
      have h_pass : faultErrno fs.head?.join = none := by
        rcases hf : fs.head?.join with _ | ⟨x⟩ | ⟨m⟩
        · rfl
        · exact absurd ⟨x, hf⟩ h_fail
        · rfl
      refine ⟨r, _, (exec_pass h_pass rfl).trans hr, ?_⟩
      split
      · exact ⟨dst, h₁⟩
      · rw [h₁.node]
        exact ⟨_, h₁.setNode _⟩
  rw [run_sys h_alloc]
  have hk₂ : (w₂.node f.ino).kind = .reg d := by rw [h₂.keeps.node _ h_lt, hk]
  rw [h_size]
  rcases exec_sendfile ⟨w.next, access, append⟩ dst₂ hk₂ (by rw [h₂.node]) ha ho
    fs.tail.head?.join with ⟨x, hx, h_send⟩ | ⟨n, d', hx, h_short, h_send⟩
  · -- the transfer fails
    rw [run_sys h_send]
    refine ⟨false, x, fs.tail.tail, w₂, rfl, ⟨_, _, h₂⟩, (and_iff_right rfl).trans ?_⟩
    rw [transferCut_of_short (cutShort_of_fail hx), hx, Option.getD_some]
  rw [run_sys h_send, errnoAfter_ok, errnoAfter_ok]
  have h₃ := h₂.setNode ⟨.reg d', (w₂.node w.next).attr.written w₂.now⟩
  dsimp only
  by_cases h_cut : CutShort d fs.tail.head?.join
  · -- it comes out short, which leaves `errno` alone
    rw [if_pos (h_short.mpr h_cut)]
    refine ⟨false, e, fs.tail.tail, _, rfl, ⟨_, _, h₃⟩, (and_iff_right rfl).trans ?_⟩
    rw [transferCut_of_short h_cut, hx, Option.getD_none]
  · -- the whole content is there; the three calls that follow set the attributes
    rw [if_neg fun h => h_cut (h_short.mp h)]
    simp only [transferCut_of_not_short h_cut]
    refine run_setAttr h₃ rfl (by simp) (answer_fchmod _ _) (fun x => rfl) fun h₄ => ?_
    refine run_setAttr h₄ rfl (by simp) (answer_futimens _ _ _) (fun x => rfl) fun h₅ => ?_
    refine run_setAttr h₅ rfl (by simp) (answer_fchown _ _ _) (fun x => rfl) fun h₆ => ?_
    exact ⟨true, _, _, _, rfl, ⟨_, _, h₆⟩, by simp [FailureLeavesENOENT]⟩

/-- **`fileCopyInternal` under faults.** It returns; either nothing was made or the new file was,
and `CopyCut` says when it gives up with `ENOENT` in the error register. -/
theorem run_fileCopyInternal {f : OpenFile} (st : Stat) (e : Errno) (fs : List (Option Fault))
    (hk : (w.node f.ino).kind = .reg d)
    (h_lt : f.ino < w.next) (ha : f.access ≠ .wronly) (h_size : st.size = d.length)
    (ht : w.names target = none) (hp : w.isDir target.parent) :
    ∃ b e' fs' w', (machine Root).run (fileCopyInternal f st target) e fs w
        = ⟨.done b, e', fs', w'⟩ ∧
      (b = false ∧ e' = .ENOENT ↔ CopyCut d e fs) ∧
      (b = false ∧ w' = w ∨ ∃ data a, Created w target ⟨.reg data, a⟩ w') := by
  unfold fileCopyInternal
  rcases h : faultErrno fs.head?.join with _ | x
  · rw [run_sys ((exec_pass h rfl).trans (answer_openat_create ht hp rfl _))]
    obtain ⟨b, e₁, fs₁, w₁, h_run, h_ends⟩ := run_fileCopyOpened e fs.tail
      copyFlags.access copyFlags.append hk h_lt ha
      AccessMode.noConfusion h_size (created_alloc w target (w.newInode (.reg []) st.attr.mode))
    rw [errnoAfter_ok]
    dsimp only
    rw [run_seq h_run]
    -- the `close` that ends the scope is the last call that may leave an error
    obtain ⟨r, h_close⟩ := run_close e₁ fs₁ w₁
      (⟨w.next, copyFlags.access, copyFlags.append⟩) fun _ => (pure b : Proc Root Bool)
    refine ⟨b, _, _, w₁, h_close.trans rfl, h_ends.errno.trans ?_, Or.inr h_ends.created⟩
    simp [CopyCut, h]
  · rw [run_sys (exec_fail h (by simp))]
    refine ⟨false, x, fs.tail, w, rfl, ?_, Or.inl ⟨rfl, rfl⟩⟩
    simp [CopyCut, h]

end Copy

end GitlstreeFS
