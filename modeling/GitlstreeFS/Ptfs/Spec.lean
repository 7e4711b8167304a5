import GitlstreeFS.Ptfs.Handler
import GitlstreeFS.Posix.Rules

/-!
# Answering requests

`Handler.serve_of_wp` takes the specification of the program that answers a request to the
session after the request. For the requests that are a single system call the program is the
call (`Handler.serve_sys`). `Ptfs.wp_create` is the specification of the pass-through `Create`,
of which `Open` is a special case.
-/

namespace GitlstreeFS

open Effect Posix FileSystem

/-- A request whose program is correct for `Q` is answered, and `Q` holds of the reply and
the state. -/
theorem Handler.serve_of_wp {Root H : Type} [DecidableEq Root] {M : Handler Root H}
    {s : Session Root H} {c : Caller} {r : Request Root}
    {Q : Except Errno (Reply H) → Errno → FileSystem Root → Prop}
    (h : (machine Root).Wp (M.answer s c.tid r) c.errno s.fs Q) :
    ∃ a e w, Q a e w ∧
      M.serve s c r = (.done a, ⟨w, s.handlesAfter r a, s.openedAfter r⟩) := by
  obtain ⟨a, ha, hq⟩ := h
  refine ⟨a, _, _, hq, ?_⟩
  unfold Handler.serve
  simp only [ha]

/-- A request that runs a method and wraps its result. -/
theorem wp_reply {Root H α : Type} [DecidableEq Root] {f : α → Reply H}
    {p : Proc Root (Except Errno α)} {e : Errno} {w : FileSystem Root}
    {Q : Except Errno (Reply H) → Errno → FileSystem Root → Prop}
    (h : (machine Root).Wp p e w fun a e' w' => Q (a.map f) e' w') :
    (machine Root).Wp (Handler.reply f p) e w Q :=
  wp_seq (h.mono fun _ _ _ => wp_pure)

/-- A request that is one system call. -/
theorem Handler.serve_sys {Root H : Type} [DecidableEq Root] {M : Handler Root H}
    {s : Session Root H} {c : Caller} {r : Request Root} {k : SysCall Root}
    {f : k.Val → Reply H} (h : M.answer s c.tid r = Handler.reply f (sys k)) :
    M.serve s c r = (.done ((Posix.answer s.fs k).1.map f),
      ⟨(Posix.answer s.fs k).2, s.handlesAfter r ((Posix.answer s.fs k).1.map f),
        s.openedAfter r⟩) := by
  have h_wp : (machine Root).Wp (M.answer s c.tid r) c.errno s.fs fun a _ w' =>
      a = (Posix.answer s.fs k).1.map f ∧ w' = (Posix.answer s.fs k).2 := by
    rw [h]
    exact wp_reply (wp_sys_last rfl ⟨rfl, rfl⟩)
  obtain ⟨a, e, w', ⟨rfl, rfl⟩, h_serve⟩ := Handler.serve_of_wp h_wp
  exact h_serve

section Handles

variable {Root H : Type} {M : Handler Root H} {s : Session Root H} {n : ℕ} {fh : H}
  {fl : OpenFlags}

/-- A write through a handle that is not live. -/
theorem Handler.serve_write_closed [DecidableEq Root] (h : s.handles n = none) (c : Caller)
    (buf : Bytes) (off : ℕ) : M.serve s c (.write n buf off) = (.done (.error .EBADF), s) := by
  have h_wp : (machine Root).Wp (M.answer s c.tid (.write n buf off)) c.errno s.fs
      fun a _ w' => a = .error .EBADF ∧ w' = s.fs := by
    unfold Handler.answer
    simp only [h]
    exact wp_pure ⟨rfl, rfl⟩
  obtain ⟨a, e, w', ⟨rfl, rfl⟩, h_serve⟩ := Handler.serve_of_wp h_wp
  exact h_serve

/-- A release of a handle that is not live. -/
theorem Handler.serve_release_closed [DecidableEq Root] (h : s.handles n = none) (c : Caller) :
    M.serve s c (.release n) = (.done (.error .EBADF), s) := by
  have h_wp : (machine Root).Wp (M.answer s c.tid (.release n)) c.errno s.fs
      fun a _ w' => a = .error .EBADF ∧ w' = s.fs := by
    unfold Handler.answer
    simp only [h]
    exact wp_pure ⟨rfl, rfl⟩
  obtain ⟨a, e, w', ⟨rfl, rfl⟩, h_serve⟩ := Handler.serve_of_wp h_wp
  have h_handles : s.handlesAfter (.release n) (.error .EBADF : Except Errno (Reply H))
      = s.handles := Function.update_eq_self_iff.mpr h.symm
  rw [h_serve, h_handles]
  rfl

theorem Handler.answer_write_live (h : s.handles n = some (fh, fl)) (tid : ℕ) (buf : Bytes)
    (off : ℕ) : M.answer s tid (.write n buf off)
      = Handler.reply .count (Ptfs.write (M.fd fh) buf off) := by
  unfold Handler.answer
  simp only [h]

theorem Handler.answer_release_live (h : s.handles n = some (fh, fl)) (tid : ℕ) :
    M.answer s tid (.release n) = Handler.reply (fun _ => .ok) (M.release tid fl fh) := by
  unfold Handler.answer
  simp only [h]

end Handles

/-- `PtfsHandler::Open` is `PtfsHandler::Create` with mode 0. -/
theorem Ptfs.open'_eq_create {Root : Type} (p : Path Root) (fl : OpenFlags) :
    Ptfs.open' p fl = Ptfs.create p fl 0 := by
  refine congrArg (sys (.openat p fl 0) >>= ·) (funext fun r => ?_)
  cases r <;> rfl

/-- The path, the flags and the mode of a request that opens a file. -/
def Request.opening? {Root : Type} : Request Root → Option (Path Root × OpenFlags × Mode)
  | .open' p fl => some (p, fl, 0)
  | .create p fl mode => some (p, fl, mode)
  | _ => none

section Opening

variable {Root H : Type} {r : Request Root} {p : Path Root} {fl : OpenFlags} {mode : Mode}
  {s : Session Root H}

theorem Session.handlesAfter_opened (hr : r.opening? = some (p, fl, mode)) (fh : H) :
    s.handlesAfter r (.ok (.opened fh)) = Function.update s.handles s.opened (some (fh, fl)) := by
  cases r with
  | open' q fl' =>
    obtain ⟨rfl, rfl, rfl⟩ : q = p ∧ fl' = fl ∧ 0 = mode := by simpa [Request.opening?] using hr
    rfl
  | create q fl' mode' =>
    obtain ⟨rfl, rfl, rfl⟩ : q = p ∧ fl' = fl ∧ mode' = mode := by
      simpa [Request.opening?] using hr
    rfl
  | _ => simp [Request.opening?] at hr

theorem Session.handlesAfter_not_opened (hr : r.opening? = some (p, fl, mode)) (x : Errno) :
    s.handlesAfter r (.error x) = s.handles := by
  cases r with
  | open' q fl' => rfl
  | create q fl' mode' => rfl
  | _ => simp [Request.opening?] at hr

theorem ptfsHandler_answer_opening {s : Session Root OpenFile}
    (hr : r.opening? = some (p, fl, mode)) (tid : ℕ) :
    ptfsHandler.answer s tid r = Handler.reply .opened (Ptfs.create p fl mode) := by
  cases r with
  | open' q fl' =>
    obtain ⟨rfl, rfl, rfl⟩ : q = p ∧ fl' = fl ∧ 0 = mode := by simpa [Request.opening?] using hr
    exact congrArg (Handler.reply .opened) (Ptfs.open'_eq_create _ _)
  | create q fl' mode' =>
    obtain ⟨rfl, rfl, rfl⟩ : q = p ∧ fl' = fl ∧ mode' = mode := by
      simpa [Request.opening?] using hr
    rfl
  | _ => simp [Request.opening?] at hr

end Opening

/-- What `openat` makes of a path that is a regular file or does not exist. -/
inductive Ptfs.OpenResult {Root : Type} [DecidableEq Root] (fl : OpenFlags) (mode : Mode)
    (p : Path Root) (w : FileSystem Root) : Except Errno OpenFile → FileSystem Root → Prop
  | old {i : ℕ} (hi : w.names p = some i) (hx : ¬ (fl.creat ∧ fl.excl)) :
      OpenResult fl mode p w (.ok ⟨i, fl.access, fl.append⟩)
        (if fl.trunc then w.setNode i ⟨.reg [], (w.node i).attr.written w.now⟩ else w)
  | new (h_none : w.names p = none) (hc : fl.creat) :
      OpenResult fl mode p w (.ok ⟨w.next, fl.access, fl.append⟩)
        ((w.alloc (w.newInode (.reg []) mode)).setName p w.next)
  | failed (h : (w.names p = none ∧ fl.creat = false) ∨ (w.names p ≠ none ∧ fl.creat ∧ fl.excl)) :
      OpenResult fl mode p w (.error .ENOENT) w

/-- An open that succeeds yields a descriptor on the regular file `p`, and directories are
still directories. -/
theorem Ptfs.OpenResult.ok {Root : Type} [DecidableEq Root] {w w' : FileSystem Root}
    {p : Path Root} {fl : OpenFlags} {mode : Mode} {f : OpenFile}
    (h : Ptfs.OpenResult fl mode p w (.ok f) w')
    (h_reg : ∀ i, w.names p = some i → ∃ d, (w.node i).kind = .reg d) :
    ∃ j d, f = ⟨j, fl.access, fl.append⟩ ∧ w'.names p = some j ∧ (w'.node j).kind = .reg d ∧
      ∀ q, w.isDir q → w'.isDir q := by
  cases h with
  | @old i hi hx =>
    obtain ⟨d, hk⟩ := h_reg i hi
    cases fl.trunc with
    | false => exact ⟨i, d, rfl, hi, hk, fun q hq => hq⟩
    | true =>
      refine ⟨i, [], rfl, hi, by simp, fun q hq => ?_⟩
      have h_ne : w.names q ≠ some i := by
        intro hqi
        rw [isDir_iff, kind?_of_names hqi, hk] at hq
        simp at hq
      rw [isDir_iff] at hq ⊢
      rw [← hq, if_pos rfl, kind?_eq_map, kind?_eq_map, setNode_inode?_of_ne h_ne]
  | new h_none hc =>
    refine ⟨w.next, [], rfl, by simp, by simp [newInode], fun q hq => ?_⟩
    have h_ne : q ≠ p := by
      rintro rfl
      simp [isDir_eq_false_of_names_none h_none] at hq
    rw [((keeps_alloc _).trans (keeps_setName _ _)).isDir (Function.update_of_ne h_ne _ _), hq]

/-- `PtfsHandler::Create` of an accessible regular file or of none. -/
theorem Ptfs.wp_create {Root : Type} [DecidableEq Root] {w : FileSystem Root} {p : Path Root}
    {fl : OpenFlags} {mode : Mode} {e : Errno}
    {Q : Except Errno OpenFile → Errno → FileSystem Root → Prop} (hp : w.isDir p.parent)
    (h_reg : ∀ i, w.names p = some i → ∃ d, (w.node i).kind = .reg d ∧
      w.cred.permits (w.node i).attr 2 ∧ w.cred.permits (w.node i).attr 1)
    (hQ : ∀ r e' w', Ptfs.OpenResult fl mode p w r w' → Q r e' w') :
    (machine Root).Wp (Ptfs.create p fl mode) e w Q := by
  unfold Ptfs.create
  rcases hi : w.names p with _ | i
  · rcases hc : fl.creat with _ | _
    · exact wp_sys (answer_openat_missing hi hc mode)
        (wp_pure (hQ _ _ _ (.failed (Or.inl ⟨hi, hc⟩))))
    · exact wp_sys (answer_openat_create hi hp hc mode) (wp_pure (hQ _ _ _ (.new hi hc)))
  · obtain ⟨d, hk, h_read, h_write⟩ := h_reg i hi
    by_cases hx : fl.creat ∧ fl.excl
    · have h_ne : w.names p ≠ none := by simp [hi]
      exact wp_sys (answer_openat_excl h_ne hx.1 hx.2 mode)
        (wp_pure (hQ _ _ _ (.failed (Or.inr ⟨h_ne, hx⟩))))
    · exact wp_sys (answer_openat hi hk h_read h_write hx mode) (wp_pure (hQ _ _ _ (.old hi hx)))

end GitlstreeFS
