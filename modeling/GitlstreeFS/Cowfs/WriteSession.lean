import GitlstreeFS.Cowfs.Env

/-!
# Write sessions

A write session is an `Open` or `Create` for writing, any writes through the handle it
yields, and the `Release` of that handle. It starts where the file is linked with the
repository or does not exist, so that the handle is on an inode of its own (`Writing`), and
ends with the file linked with the repository again.

`session_effect` is the net effect. In between is the state before the release, in which
the path has a new inode with the bytes written and the repository file of the old content
may have been collected; the release then links that file (`Deduped`).
-/

namespace GitlstreeFS.Cowfs

open Effect Posix FileSystem

/-- The requests of a write session: `Open` if `mode` is `none`, else `Create`. -/
structure WriteSession where
  path : Path Tree
  flags : OpenFlags
  mode : Option Mode
  writes : List (Bytes × ℕ)

namespace WriteSession

def first (ws : WriteSession) : Request Tree :=
  match ws.mode with
  | none => .open' ws.path ws.flags
  | some m => .create ws.path ws.flags m

/-- The requests, for a session whose handle is `h`. -/
def requests (ws : WriteSession) (h : ℕ) : List (Request Tree) :=
  ws.first :: (ws.writes.map fun x => .write h x.1 x.2) ++ [.release h]

/-- The bytes of a file after one write. -/
def written (fl : OpenFlags) (c : Bytes) (x : Bytes × ℕ) : Bytes :=
  writeAt c (if fl.append then c.length else x.2) x.1

/-- The bytes of the file at the end of the session, if it had the bytes `d` before. -/
def result (ws : WriteSession) (d : Bytes) : Bytes :=
  ws.writes.foldl (written ws.flags) (if ws.flags.trunc then [] else d)

/-- The session is for writing and its system calls succeed in the state `w`: the file exists
and is not to be created exclusively, or does not exist and is to be created; it can be read
whole before and after. -/
structure Fits (ws : WriteSession) (w : FileSystem Tree) : Prop where
  writable : ws.flags.writes
  root : ws.path.root = .workdir
  clean : Clean ws.path
  parent : w.isDir ws.path.parent
  target :
    (∃ d, w.content ws.path = some d ∧ ¬ (ws.flags.creat ∧ ws.flags.excl) ∧
      d.length ≤ maxRwCount ∧ (ws.result d).length ≤ maxRwCount) ∨
    (w.names ws.path = none ∧ ws.flags.creat ∧ (ws.result []).length ≤ maxRwCount ∧
      w.cred.permits (w.newAttr (ws.mode.getD 0)) 2 ∧
      w.cred.permits (w.newAttr (ws.mode.getD 0)) 1)

end WriteSession

variable {sha1 : Bytes → Bytes} {w : FileSystem Tree} {p : Path Tree} {h j : ℕ} {c : Bytes}
  {fl : OpenFlags} {s : Session Tree CowFileHandle}

/-- While a session on `p` is going on: its handle is on the inode `j` of content `c`, which
is new since the state `w` before the session and has no other name than `p`. -/
structure Writing (sha1 : Bytes → Bytes) (w : FileSystem Tree) (p : Path Tree) (fl : OpenFlags)
    (h j : ℕ) (c : Bytes) (s : Session Tree CowFileHandle) : Prop where
  handle : s.handles h = some (⟨p, ⟨j, fl.access, fl.append⟩⟩, fl)
  env : Env sha1 s.fs
  keeps : Keeps w s.fs
  fresh : w.next ≤ j
  alone : Alone s.fs p j
  kind : (s.fs.node j).kind = .reg c
  other : ∀ q, q ≠ p → (∀ d, w.content p = some d → q ≠ repoPath sha1 d) →
    s.fs.names q = w.names q
  repo : ∀ d, w.content p = some d → Collected w s.fs (repoPath sha1 d)

/-- Writing an inode that is new keeps what the state before had. -/
theorem Writing.setNode (hs : Writing sha1 w p fl h j c s) (h_root : p.root = .workdir)
    (c' : Bytes) {a : Attr}
    (ha : ∀ bit < 3, s.fs.cred.permits a bit = s.fs.cred.permits (s.fs.node j).attr bit) :
    Writing sha1 w p fl h j c' ⟨s.fs.setNode j ⟨.reg c', a⟩, s.handles, s.opened⟩ where
  handle := hs.handle
  env := hs.env.setNode h_root hs.alone hs.kind c' ha
  keeps := hs.keeps.setNode hs.fresh _
  fresh := hs.fresh
  alone := ⟨hs.alone.names, hs.alone.only⟩
  kind := by simp
  other := hs.other
  repo := hs.repo

/-- A change of the times leaves the permissions alone. -/
theorem permits_written (c : Cred) (a : Attr) (now bit : ℕ) :
    c.permits (a.written now) bit = c.permits a bit := rfl

/-- One write of a session. -/
theorem Writing.write (hs : Writing sha1 w p fl h j c s) (h_root : p.root = .workdir)
    (hf : fl.writes) (caller : Caller) (x : Bytes × ℕ) :
    Writing sha1 w p fl h j (WriteSession.written fl c x)
      ((cowfsHandler sha1).serve s caller (.write h x.1 x.2)).2 := by
  have h_access : fl.access ≠ .rdonly := by simpa [OpenFlags.writes] using hf
  have h_wp : (machine Tree).Wp ((cowfsHandler sha1).answer s caller.tid (.write h x.1 x.2))
      caller.errno s.fs fun a _ w' => a = .ok (.count x.1.length) ∧
        w' = s.fs.setNode j ⟨.reg (WriteSession.written fl c x), (s.fs.node j).attr.written s.fs.now⟩ := by
    unfold Handler.answer
    simp only [hs.handle]
    refine wp_reply (wp_sys_last (answer_pwrite (f := ⟨j, fl.access, fl.append⟩) hs.kind h_access
      x.1 x.2) ⟨rfl, rfl⟩)
  obtain ⟨a, e, w', ⟨rfl, rfl⟩, h_serve⟩ := Handler.serve_of_wp h_wp
  rw [h_serve]
  exact hs.setNode h_root _ fun bit _ => permits_written _ _ _ bit

/-- Any number of writes of a session. -/
theorem Writing.writes (h_root : p.root = .workdir) (hf : fl.writes) (xs : List (Bytes × ℕ)) :
    ∀ {c : Bytes} {s : Session Tree CowFileHandle}, Writing sha1 w p fl h j c s →
    ∀ rs : List (Caller × Request Tree),
      rs.map Prod.snd = xs.map (fun x => Request.write h x.1 x.2) →
      Writing sha1 w p fl h j (xs.foldl (WriteSession.written fl) c)
        ((cowfsHandler sha1).serveAll s rs) := by
  induction xs with
  | nil =>
    intro c s hs rs h_rs
    obtain rfl : rs = [] := by simpa using h_rs
    exact hs
  | cons x xs ih =>
    intro c s hs rs h_rs
    obtain ⟨⟨caller, r⟩, rs, rfl⟩ : ∃ r rs', rs = r :: rs' := by
      cases rs with
      | nil => simp at h_rs
      | cons r rs => exact ⟨r, rs, rfl⟩
    simp only [List.map_cons, List.cons.injEq] at h_rs
    obtain ⟨rfl, h_rs⟩ := h_rs
    exact ih (hs.write h_root hf caller x) rs h_rs

/-! ### The open -/

theorem newAttr_of_keeps {w w' : FileSystem Tree} (h : Keeps w w') (mode : Mode) :
    w'.newAttr mode = w.newAttr mode := by
  simp only [newAttr, h.cred, h.now]

section Open

variable {ws : WriteSession} {w₁ : FileSystem Tree} {handles : ℕ → Option (CowFileHandle × OpenFlags)}
  {opened : ℕ}

/-- Creating the file of a session. -/
private theorem writing_create (hw : Env sha1 w) (h_root : p.root = .workdir) (h_clean : Clean p)
    (h_none : w.names p = none) (h_keeps : Keeps w w₁) (h_names : w₁.names = w.names) {mode : Mode}
    (h_read : w.cred.permits (w.newAttr mode) 2) (h_write : w.cred.permits (w.newAttr mode) 1)
    (h_handle : handles h = some (⟨p, ⟨w₁.next, fl.access, fl.append⟩⟩, fl)) :
    Writing sha1 w p fl h w₁.next []
      ⟨(w₁.alloc (w₁.newInode (.reg []) mode)).setName p w₁.next, handles, opened⟩ where
  handle := h_handle
  env := (hw.same h_keeps h_names).create h_clean h_root (by rw [h_names, h_none])
    (by rw [h_keeps.cred, newAttr_of_keeps h_keeps, h_read])
    (by rw [h_keeps.cred, newAttr_of_keeps h_keeps, h_write])
  keeps := h_keeps.trans ((keeps_alloc _).trans (keeps_setName _ _))
  fresh := h_keeps.next
  alone := alone_create p _
  kind := by simp [newInode]
  other q hq _ := (Function.update_of_ne hq _ _).trans (by rw [alloc_names, h_names])
  repo d hd := by
    obtain ⟨i, hi, -⟩ := content_eq_some.mp hd
    simp [h_none] at hi

/-- Opening a file whose link was broken. -/
private theorem writing_broken (hw : Env sha1 w) (h_root : p.root = .workdir) (h_clean : Clean p)
    {i : ℕ} {d : Bytes} (hi : w.names p = some i) (hk : (w.node i).kind = .reg d)
    (hb : Broken sha1 w p i d w₁) (h_alone : Alone w₁ p j) (h_next : w.next ≤ j)
    (h_kind : (w₁.node j).kind = .reg d)
    (h_handle : handles h = some (⟨p, ⟨j, fl.access, fl.append⟩⟩, fl)) :
    Writing sha1 w p fl h j (if fl.trunc then [] else d)
      ⟨if fl.trunc then w₁.setNode j ⟨.reg [], (w₁.node j).attr.written w₁.now⟩ else w₁,
        handles, opened⟩ := by
  have h_content : ∀ d', w.content p = some d' → d' = d := by
    intro d' hd
    rw [content_iff, kind?_of_names hi, hk] at hd
    simpa using hd.symm
  have h_writing : Writing sha1 w p fl h j d ⟨w₁, handles, opened⟩ :=
    { handle := h_handle
      env := hw.broken h_clean h_root hi hk hb
      keeps := hb.keeps
      fresh := h_next
      alone := h_alone
      kind := h_kind
      other := fun q hq h_ne => hb.other q hq (h_ne d (content_eq_some.mpr ⟨i, hi, hk⟩))
      repo := fun d' hd => h_content d' hd ▸ hb.repo }
  cases fl.trunc with
  | false => exact h_writing
  | true => exact h_writing.setNode h_root [] fun bit _ => permits_written _ _ _ bit

/-- The `Open` or `Create` of a session, on a file that does not exist or has a second name. -/
theorem Writing.open' (ws : WriteSession) (hw : Env sha1 s.fs) (h_fits : ws.Fits s.fs)
    (h_many : ∀ i, s.fs.names ws.path = some i → s.fs.nlink i ≠ 1) (caller : Caller) :
    ∃ j, Writing sha1 s.fs ws.path ws.flags s.opened j
      (if ws.flags.trunc then [] else (s.fs.content ws.path).getD [])
      ((cowfsHandler sha1).serve s caller ws.first).2 := by
  have h_opening : ws.first.opening? = some (ws.path, ws.flags, ws.mode.getD 0) := by
    unfold WriteSession.first
    cases ws.mode <;> rfl
  -- the handler breaks the hard link first and then opens as `Ptfs` does
  have h_wp : (machine Tree).Wp ((cowfsHandler sha1).answer s caller.tid ws.first) caller.errno s.fs
      fun a _ w' => ∃ j, Writing sha1 s.fs ws.path ws.flags s.opened j
        (if ws.flags.trunc then [] else (s.fs.content ws.path).getD [])
        ⟨w', s.handlesAfter ws.first a, s.openedAfter ws.first⟩ := by
    rw [cowfsHandler_answer_opening h_opening]
    refine wp_reply (wp_openBroken hw h_fits.clean h_fits.root h_fits.parent h_fits.writable
      (fun i hi => ?_) fun e' w₁ hu => ?_)
    · rcases h_fits.target with ⟨d, hd, -, h_len, -⟩ | ⟨h_none, -⟩
      · obtain ⟨k, hk, h_kind⟩ := content_eq_some.mp hd
        obtain rfl : k = i := Option.some.inj (hk.symm.trans hi)
        exact ⟨d, h_kind, Or.inr h_len⟩
      · simp [h_none] at hi
    have h_parent := hu.isDir_workdir (q := ws.path.parent) h_fits.root h_fits.parent
    cases hu with
    | same h_one h_keeps h_names =>
      -- no file: one that exists has a second name
      have h_none : s.fs.names ws.path = none := by
        by_contra h_some
        obtain ⟨i, hi⟩ := Option.ne_none_iff_exists'.mp h_some
        exact h_many i hi (h_one i hi)
      have h_none₁ : w₁.names ws.path = none := by rw [h_names, h_none]
      rcases h_fits.target with ⟨d, hd, -⟩ | ⟨-, h_creat, -, h_read, h_write⟩
      · obtain ⟨k, hk, -⟩ := content_eq_some.mp hd
        simp [h_none] at hk
      refine Ptfs.wp_create h_parent (by simp [h_none₁]) fun r e'' w₂ hr => ?_
      have h_empty : (if ws.flags.trunc then [] else (s.fs.content ws.path).getD []) = [] := by
        simp [content, inode?, h_none]
      cases hr with
      | old hi _ => simp [h_none₁] at hi
      | failed h_failed => simp [h_none₁, h_creat] at h_failed
      | new _ _ =>
        rw [h_empty]
        exact ⟨w₁.next, writing_create hw h_fits.root h_fits.clean h_none h_keeps h_names h_read
          h_write (by rw [Except.map, Except.map, Session.handlesAfter_opened h_opening,
            Function.update_self])⟩
    | broken i d hi hk _ hb =>
      obtain ⟨j, h_next, h_alone, h_kind, -⟩ := hb.alone
      have h_content : s.fs.content ws.path = some d := content_eq_some.mpr ⟨i, hi, hk⟩
      -- an exclusive creation does not fit a file that exists
      have h_excl : ¬ (ws.flags.creat ∧ ws.flags.excl) := by
        rcases h_fits.target with ⟨-, -, h_excl, -⟩ | ⟨h_none, -⟩
        · exact h_excl
        · simp [hi] at h_none
      refine Ptfs.wp_create h_parent (fun k hk' => ?_) fun r e'' w₂ hr => ?_
      · obtain rfl : j = k := Option.some.inj (h_alone.names.symm.trans hk')
        have h_env := hw.broken h_fits.clean h_fits.root hi hk hb
        exact ⟨d, h_kind, h_env.access _ j d h_alone.names h_kind⟩
      · cases hr with
        | new h_none _ => simp [h_alone.names] at h_none
        | failed h_failed =>
          rcases h_failed with ⟨h_none, -⟩ | ⟨-, hx⟩
          · simp [h_alone.names] at h_none
          · exact absurd hx h_excl
        | old hk' _ =>
          obtain rfl := Option.some.inj (h_alone.names.symm.trans hk')
          rw [h_content]
          exact ⟨j, writing_broken hw h_fits.root h_fits.clean hi hk hb h_alone h_next h_kind
            (by rw [Except.map, Except.map, Session.handlesAfter_opened h_opening,
            Function.update_self])⟩
  obtain ⟨a, e, w', h_writing, h_serve⟩ := Handler.serve_of_wp h_wp
  rw [h_serve]
  exact h_writing

end Open

/-! ### The release -/

/-- The `Release` of a session links the file with the repository. -/
theorem Writing.release (hs : Writing sha1 w p fl h j c s) (h_root : p.root = .workdir)
    (h_clean : Clean p) (hp : s.fs.isDir p.parent) (hf : fl.writes) (hc : c.length ≤ maxRwCount)
    (caller : Caller) :
    Deduped sha1 s.fs p c ((cowfsHandler sha1).serve s caller (.release h)).2.fs := by
  have h_wp : (machine Tree).Wp ((cowfsHandler sha1).answer s caller.tid (.release h))
      caller.errno s.fs fun _ _ w' => Deduped sha1 s.fs p c w' := by
    unfold Handler.answer
    simp only [hs.handle]
    refine wp_reply (wp_sys (answer_close _) ?_)
    rw [if_pos hf]
    refine wp_seq (wp_findOutRepoAndMaybeHardlink hs.env h_clean h_root hp hs.alone.names hs.kind
      (fun _ e' w' hd => wp_pure hd) (fun h_long => ?_))
    omega
  obtain ⟨a, e, w', hd, h_serve⟩ := Handler.serve_of_wp h_wp
  rw [h_serve]
  exact hd

/-- **The effect of a write session.** Before the release the path has an inode of its own,
new since the start, that holds the bytes written; the release links it. -/
theorem session_effect (ws : WriteSession) (hw : Env sha1 s.fs) (h_fits : ws.Fits s.fs)
    (h_many : ∀ i, s.fs.names ws.path = some i → s.fs.nlink i ≠ 1)
    {rs : List (Caller × Request Tree)} (h_rs : rs.map Prod.snd = ws.requests s.opened) :
    ∃ j s₃, Writing sha1 s.fs ws.path ws.flags s.opened j
        (ws.result ((s.fs.content ws.path).getD [])) s₃ ∧
      Deduped sha1 s₃.fs ws.path (ws.result ((s.fs.content ws.path).getD []))
        ((cowfsHandler sha1).serveAll s rs).fs := by
  -- the open, the writes and the release among the requests
  obtain ⟨rs₁, rs₃, rfl, h₁, h₃⟩ := List.map_eq_append_iff.mp h_rs
  obtain ⟨⟨caller, _⟩, rs₂, rfl, rfl, h₂⟩ := List.map_eq_cons_iff.mp h₁
  obtain ⟨⟨caller', _⟩, _, rfl, rfl, h_nil⟩ := List.map_eq_cons_iff.mp h₃
  obtain rfl := List.map_eq_nil_iff.mp h_nil
  have h_not_dir : s.fs.isDir ws.path = false := by
    rw [Bool.eq_false_iff, Ne, isDir_iff]
    rcases h_fits.target with ⟨d, hd, -⟩ | ⟨h_none, -⟩
    · rw [content_iff.mp hd]
      simp
    · simp [kind?_eq_none.mpr h_none]
  -- the directory of the file is another path, which no write changes
  have h_parent : ws.path.parent ≠ ws.path := by
    intro h_eq
    have := h_fits.parent
    rw [h_eq, h_not_dir] at this
    simp at this
  obtain ⟨j, h_open⟩ := Writing.open' ws hw h_fits h_many caller
  have h_writes := Writing.writes h_fits.root h_fits.writable ws.writes h_open rs₂ h₂
  refine ⟨j, _, h_writes, ?_⟩
  rw [Handler.serveAll_append]
  refine h_writes.release h_fits.root h_fits.clean ?_ h_fits.writable ?_ caller'
  · -- what the release relies on: the directory is there, and the file is not too long
    rw [h_writes.keeps.isDir (h_writes.other _ h_parent fun d _ => ne_of_root h_fits.root rfl),
      h_fits.parent]
  · change (ws.result _).length ≤ maxRwCount
    rcases h_fits.target with ⟨d, hd, -, -, h_len⟩ | ⟨h_none, -, h_len, -⟩
    · rw [hd]
      exact h_len
    · have h_empty : s.fs.content ws.path = none := by simp [content, inode?, h_none]
      rw [h_empty]
      exact h_len

end GitlstreeFS.Cowfs
