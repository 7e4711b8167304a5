import GitlstreeFS.Cowfs.WriteSession

/-!
# Transparency

Cowfs and the pass-through file system serve the same requests: opens for writing, writes and
releases, over any number of handles. The pass-through one runs on a `Counterpart` of the
mount, a directory with the same files in which no two paths share an inode. Cowfs is
transparent if the two show the same contents all along.

It is not, in two cases. A release relinks the path while another handle on it still holds
the inode the path had; a write through that handle is lost, or changes what another name or
the repository shows. And the link of a file longer than one transfer is not broken.
`Careful` excludes the two, and `transparent` says that nothing else goes wrong.

The proof carries `InStep` from request to request: the two states show the same files, and
handles of one number are on the same path.
-/

namespace GitlstreeFS.Cowfs

open Effect Posix FileSystem

variable {sha1 : Bytes → Bytes} {w w' v v' : FileSystem Tree} {p : Path Tree} {i : ℕ} {d : Bytes}
  {fl : OpenFlags} {mode : Mode}

/-- `v` is what the underlying directory of `w` would be without shared inodes: the same files,
directories and links, and no inode with two names. -/
structure Counterpart (w v : FileSystem Tree) : Prop where
  kind : ∀ p, p.root = .workdir → v.kind? p = w.kind? p
  unshared : ∀ p q i, p.root = .workdir → q.root = .workdir → v.names p = some i →
    v.names q = some i → q = p
  access : ∀ p i d, p.root = .workdir → v.names p = some i → (v.node i).kind = .reg d →
    v.cred.permits (v.node i).attr 2 ∧ v.cred.permits (v.node i).attr 1
  cred : v.cred = w.cred

namespace Counterpart

theorem names_none (h : Counterpart w v) (hp : p.root = .workdir) :
    v.names p = none ↔ w.names p = none := by
  rw [← kind?_eq_none, ← kind?_eq_none, h.kind p hp]

theorem isDir (h : Counterpart w v) (hp : p.root = .workdir) : v.isDir p = w.isDir p := by
  rw [Bool.eq_iff_iff, isDir_iff, isDir_iff, h.kind p hp]

theorem content (h : Counterpart w v) (hp : p.root = .workdir) : v.content p = w.content p :=
  content_congr (h.kind p hp)

/-- The inode of a regular file. -/
theorem names_of_content (h : Counterpart w v) (hp : p.root = .workdir)
    (hd : w.content p = some d) : ∃ j, v.names p = some j ∧ (v.node j).kind = .reg d :=
  content_eq_some.mp (by rw [h.content hp, hd])

end Counterpart

/-! ### What linking and unlinking preserve -/

/-- Breaking a link changes no file. -/
theorem Unshared.kind?_workdir (h : Unshared sha1 w p w') {q : Path Tree}
    (hq : q.root = .workdir) : w'.kind? q = w.kind? q := by
  by_cases hqp : q = p
  · subst hqp
    rcases h.target with ⟨h_none, h_none'⟩ | ⟨i, j, hi, h_alone, h_kind, -⟩
    · rw [kind?_eq_none.mpr h_none, kind?_eq_none.mpr h_none']
    · rw [kind?_of_names hi, kind?_of_names h_alone.names, h_kind]
  · exact h.keeps.kind? (h.names_workdir hqp hq)

/-- Linking with the repository changes no file. -/
theorem Deduped.kind?_workdir (hw : Env sha1 w) (h_root : p.root = .workdir)
    (hi : w.names p = some i) (hk : (w.node i).kind = .reg d) (h : Deduped sha1 w p d w')
    {q : Path Tree} (hq : q.root = .workdir) : w'.kind? q = w.kind? q := by
  by_cases hqp : q = p
  · subst hqp
    obtain ⟨k, hk_p, -, h_kind⟩ := h.content hw hi hk
    rw [kind?_of_names hi, kind?_of_names hk_p, hk, h_kind]
  · exact h.keeps.kind? (h.other q hqp (ne_of_root hq rfl) (ne_of_root hq rfl))

/-! ### The relation -/

/-- A handle of cowfs and the handle of the pass-through file system with the same number.
Nothing is said of the inode the former is on. -/
inductive HandleRel (w v : FileSystem Tree) :
    Option (CowFileHandle × OpenFlags) → Option (OpenFile × OpenFlags) → Prop
  | closed : HandleRel w v none none
  | live {p : Path Tree} {i j : ℕ} {fl : OpenFlags} {d : Bytes} (h_root : p.root = .workdir)
      (h_clean : Clean p) (h_parent : w.isDir p.parent) (hf : fl.writes)
      (h_reg : w.content p = some d) (h_plain : v.names p = some j) :
      HandleRel w v (some (⟨p, ⟨i, fl.access, fl.append⟩⟩, fl))
        (some (⟨j, fl.access, fl.append⟩, fl))

/-- The handles after a step that keeps directories directories and files files. -/
theorem HandleRel.mono {a : Option (CowFileHandle × OpenFlags)}
    {b : Option (OpenFile × OpenFlags)} (h : HandleRel w v a b)
    (h_dir : ∀ q, q.root = .workdir → w.isDir q → w'.isDir q)
    (h_reg : ∀ q d, q.root = .workdir → w.content q = some d → ∃ d', w'.content q = some d')
    (h_plain : ∀ q j, q.root = .workdir → v.names q = some j → v'.names q = some j) :
    HandleRel w' v' a b := by
  cases h with
  | closed => exact .closed
  | @live p i j fl d h_root h_clean h_parent hf h_file hj =>
    obtain ⟨d', hd'⟩ := h_reg p d h_root h_file
    exact .live h_root h_clean (h_dir _ h_root h_parent) hf hd' (h_plain p j h_root hj)

/-- Cowfs in the state `w` with the handles `hc` and the pass-through file system in the state
`v` with the handles `hp` are in step. -/
structure Related (sha1 : Bytes → Bytes) (w v : FileSystem Tree)
    (hc : ℕ → Option (CowFileHandle × OpenFlags)) (hp : ℕ → Option (OpenFile × OpenFlags)) :
    Prop where
  env : Env sha1 w
  counterpart : Counterpart w v
  handles : ∀ h, HandleRel w v (hc h) (hp h)

namespace Related

variable {hc : ℕ → Option (CowFileHandle × OpenFlags)} {hp : ℕ → Option (OpenFile × OpenFlags)}

/-- A step of cowfs alone that changes no file: breaking a link, linking with the repository. -/
theorem of_kind (hr : Related sha1 w v hc hp) (h_env : Env sha1 w') (h_cred : w'.cred = w.cred)
    (h_kind : ∀ q, q.root = .workdir → w'.kind? q = w.kind? q) : Related sha1 w' v hc hp where
  env := h_env
  counterpart :=
    { kind := fun q hq => by rw [hr.counterpart.kind q hq, h_kind q hq]
      unshared := hr.counterpart.unshared
      access := hr.counterpart.access
      cred := hr.counterpart.cred.trans h_cred.symm }
  handles h := (hr.handles h).mono
    (fun q hq h_dir => by rw [isDir_iff, h_kind q hq, ← isDir_iff, h_dir])
    (fun q d hq hd => ⟨d, (content_congr (h_kind q hq)).trans hd⟩) fun _ _ _ h => h

/-- Writing the same bytes to a file that has no other name in either state. -/
theorem setNode (hr : Related sha1 w v hc hp) (h_root : p.root = .workdir) {i j : ℕ}
    {c c' : Bytes} {a a' : Attr} (h_alone : Alone w p i) (hk : (w.node i).kind = .reg c)
    (hj : v.names p = some j) (hk' : (v.node j).kind = .reg c)
    (ha : ∀ bit < 3, w.cred.permits a bit = w.cred.permits (w.node i).attr bit)
    (ha' : ∀ bit < 3, v.cred.permits a' bit = v.cred.permits (v.node j).attr bit) :
    Related sha1 (w.setNode i ⟨.reg c', a⟩) (v.setNode j ⟨.reg c', a'⟩) hc hp := by
  -- no other path sees the change, in either state
  have h_w : ∀ q, q ≠ p → (w.setNode i ⟨.reg c', a⟩).kind? q = w.kind? q := fun q hq => by
    rw [kind?_eq_map, kind?_eq_map, setNode_inode?_of_ne fun h => hq (h_alone.only q h)]
  have h_v : ∀ q, q.root = .workdir → q ≠ p →
      (v.setNode j ⟨.reg c', a'⟩).kind? q = v.kind? q := fun q hq hqp => by
    rw [kind?_eq_map, kind?_eq_map, setNode_inode?_of_ne fun h =>
      hqp (hr.counterpart.unshared p q j h_root hq hj h)]
  have h_wp : (w.setNode i ⟨.reg c', a⟩).kind? p = some (.reg c') := by
    rw [kind?_eq_map, setNode_inode? h_alone.names]
    rfl
  have h_vp : (v.setNode j ⟨.reg c', a'⟩).kind? p = some (.reg c') := by
    rw [kind?_eq_map, setNode_inode? hj]
    rfl
  refine ⟨hr.env.setNode h_root h_alone hk c' ha,
    ⟨?_, hr.counterpart.unshared, ?_, hr.counterpart.cred⟩, fun h => ?_⟩
  · intro q hq
    by_cases hqp : q = p
    · rw [hqp, h_wp, h_vp]
    · rw [h_w q hqp, h_v q hq hqp, hr.counterpart.kind q hq]
  · -- what may be read and written
    intro q k d hq hqk h_kind
    by_cases hqp : q = p
    · subst hqp
      obtain rfl : j = k := Option.some.inj (hj.symm.trans hqk)
      simp only [setNode_node, Function.update_self, setNode_cred, ha' 2 (by omega),
        ha' 1 (by omega)]
      exact hr.counterpart.access q j c hq hj hk'
    · have h_ne : k ≠ j := by
        rintro rfl
        exact hqp (hr.counterpart.unshared p q k h_root hq hj hqk)
      rw [setNode_node, Function.update_of_ne h_ne] at h_kind ⊢
      exact hr.counterpart.access q k d hq hqk h_kind
  · refine (hr.handles h).mono ?_ ?_ fun _ _ _ h => h
    · intro q _ hq
      rw [isDir_iff] at hq ⊢
      by_cases hqp : q = p
      · rw [hqp, kind?_of_names h_alone.names, hk] at hq
        simp at hq
      · rw [h_w q hqp, hq]
    · intro q d _ hq
      by_cases hqp : q = p
      · exact ⟨c', content_iff.mpr (hqp ▸ h_wp)⟩
      · exact ⟨d, (content_congr (h_w q hqp)).trans hq⟩

/-- Creating a file in both states. -/
theorem create (hr : Related sha1 w v hc hp) (h_root : p.root = .workdir)
    (h_clean : Clean p) (h_none : w.names p = none) {mode : Mode}
    (h_read : w.cred.permits (w.newAttr mode) 2) (h_write : w.cred.permits (w.newAttr mode) 1) :
    Related sha1 ((w.alloc (w.newInode (.reg []) mode)).setName p w.next)
      ((v.alloc (v.newInode (.reg []) mode)).setName p v.next) hc hp := by
  have h_none' := (hr.counterpart.names_none h_root).mpr h_none
  -- the two states are changed in one way, so what follows is said of any state
  have h_keeps : ∀ u : FileSystem Tree,
      Keeps u ((u.alloc (u.newInode (.reg []) mode)).setName p u.next) := fun u =>
    (keeps_alloc _).trans (keeps_setName _ _)
  have h_names : ∀ (u : FileSystem Tree) q, q ≠ p →
      ((u.alloc (u.newInode (.reg []) mode)).setName p u.next).names q = u.names q :=
    fun u q hq => Function.update_of_ne hq _ _
  have h_new : ∀ u : FileSystem Tree,
      ((u.alloc (u.newInode (.reg []) mode)).setName p u.next).kind? p = some (.reg []) := by
    intro u
    rw [kind?_of_names (alone_create p _).names]
    simp [newInode]
  have h_attr : ∀ bit,
      v.cred.permits (v.newAttr mode) bit = w.cred.permits (w.newAttr mode) bit := by
    intro bit
    simp only [newAttr, Cred.permits, hr.counterpart.cred]
  refine ⟨hr.env.create h_clean h_root h_none h_read h_write, ⟨?_, ?_, ?_, hr.counterpart.cred⟩,
    fun h => ?_⟩
  · -- the kinds of all paths
    intro q hq
    by_cases hqp : q = p
    · rw [hqp, h_new, h_new]
    · rw [(h_keeps w).kind? (h_names w q hqp), (h_keeps v).kind? (h_names v q hqp),
        hr.counterpart.kind q hq]
  · -- the new inode is that of `p` only
    intro q q' k hq hq' hk hk'
    have h_alone := alone_create (w := v) p (v.newInode (.reg []) mode)
    by_cases hkn : k = v.next
    · subst hkn
      rw [h_alone.only q hk, h_alone.only q' hk']
    · have h_old : ∀ r, ((v.alloc (v.newInode (.reg []) mode)).setName p v.next).names r = some k →
          v.names r = some k := by
        intro r hr'
        by_cases hrp : r = p
        · rw [hrp] at hr'
          exact absurd (Option.some.inj (hr'.symm.trans h_alone.names)) hkn
        · rw [← h_names v r hrp, hr']
      exact hr.counterpart.unshared q q' k hq hq' (h_old q hk) (h_old q' hk')
  · -- who may read and write
    intro q k d hq hk h_kind
    by_cases hqp : q = p
    · subst hqp
      obtain rfl : v.next = k := Option.some.inj ((alone_create q _).names.symm.trans hk)
      simp [newInode, h_attr, h_read, h_write]
    · rw [h_names v q hqp] at hk
      rw [(h_keeps v).node_of_names hk] at h_kind ⊢
      exact hr.counterpart.access q k d hq hk h_kind
  · -- a handle is of a file that was there before, and `p` was not
    have h_ne : ∀ {u : FileSystem Tree} {q k}, u.names p = none → u.names q = some k → q ≠ p := by
      rintro u q k hu hk rfl
      simp [hu] at hk
    refine (hr.handles h).mono ?_ ?_ ?_
    · intro q _ hq
      have hqp : q ≠ p := by
        rintro rfl
        simp [isDir_eq_false_of_names_none h_none] at hq
      rw [(h_keeps w).isDir (h_names w q hqp), hq]
    · intro q d _ hq
      obtain ⟨k, hk, -⟩ := content_eq_some.mp hq
      exact ⟨d, ((h_keeps w).content (h_names w q (h_ne h_none hk))).trans hq⟩
    · intro q j _ hj
      rw [h_names v q (h_ne h_none' hj), hj]

/-- One more handle in both. -/
theorem opened (hr : Related sha1 w v hc hp) (n : ℕ) {a : Option (CowFileHandle × OpenFlags)}
    {b : Option (OpenFile × OpenFlags)} (h : HandleRel w v a b) :
    Related sha1 w v (Function.update hc n a) (Function.update hp n b) where
  env := hr.env
  counterpart := hr.counterpart
  handles m := by
    by_cases hm : m = n
    · subst hm
      simpa using h
    · simpa [hm] using hr.handles m

end Related

/-! ### Opening -/

/-- An open for writing of a regular file or of none whose system calls succeed in the state
`w`, `ENOENT` and `EEXIST` of the pass-through method apart. -/
structure OpensForWriting (w : FileSystem Tree) (p : Path Tree) (fl : OpenFlags) (mode : Mode) :
    Prop where
  writes : fl.writes
  root : p.root = .workdir
  clean : Clean p
  parent : w.isDir p.parent
  target : w.names p = none ∨ ∃ d, w.content p = some d
  created : w.names p = none → fl.creat →
    w.cred.permits (w.newAttr mode) 2 ∧ w.cred.permits (w.newAttr mode) 1

namespace OpensForWriting

/-- The target of an open is a regular file. -/
theorem regular (ho : OpensForWriting w p fl mode) (hi : w.names p = some i) :
    ∃ d, (w.node i).kind = .reg d := by
  obtain ⟨d, hd⟩ := ho.target.resolve_left (by simp [hi])
  obtain ⟨k, hk_names, hk⟩ := content_eq_some.mp hd
  exact ⟨d, Option.some.inj (hk_names.symm.trans hi) ▸ hk⟩

theorem regular_counterpart (ho : OpensForWriting w p fl mode) (h : Counterpart w v)
    (hi : v.names p = some i) : ∃ d, (v.node i).kind = .reg d := by
  have h_some : w.names p ≠ none := fun hn => by simp [(h.names_none ho.root).mpr hn] at hi
  obtain ⟨d, hd⟩ := ho.target.resolve_left h_some
  obtain ⟨k, hk_names, hk⟩ := h.names_of_content ho.root hd
  exact ⟨d, Option.some.inj (hk_names.symm.trans hi) ▸ hk⟩

/-- The target of an open after its link was broken. -/
theorem unshared (ho : OpensForWriting w p fl mode) (hu : Unshared sha1 w p w') :
    OpensForWriting w' p fl mode := by
  refine ⟨ho.writes, ho.root, ho.clean, hu.isDir_workdir ho.root ho.parent, ?_, fun hn hc => ?_⟩
  · rw [← kind?_eq_none, hu.kind?_workdir ho.root, kind?_eq_none,
      content_congr (hu.kind?_workdir ho.root)]
    exact ho.target
  · rw [← kind?_eq_none, hu.kind?_workdir ho.root, kind?_eq_none] at hn
    rw [hu.keeps.cred, newAttr_of_keeps hu.keeps]
    exact ho.created hn hc

end OpensForWriting

/-- What the pass-through method does in the two states, in that of cowfs with the link broken.
The handles it yields are of one kind. -/
theorem Related.openResult {hc : ℕ → Option (CowFileHandle × OpenFlags)}
    {hp : ℕ → Option (OpenFile × OpenFlags)} (hr : Related sha1 w v hc hp)
    (ho : OpensForWriting w p fl mode) (h_alone : ∀ i, w.names p = some i → Alone w p i)
    {r r' : Except Errno OpenFile} (h : Ptfs.OpenResult fl mode p w r w')
    (h' : Ptfs.OpenResult fl mode p v r' v') :
    Related sha1 w' v' hc hp ∧
      ((∃ f f', r = .ok f ∧ r' = .ok f') ∨ ∃ x x', r = .error x ∧ r' = .error x') := by
  have h_none := hr.counterpart.names_none ho.root
  -- both see the same kind of file at `p`, so they come to the same end
  cases h with
  | @old i hi hx =>
    obtain ⟨d, hk⟩ := ho.regular hi
    obtain ⟨j, hj, hk'⟩ := hr.counterpart.names_of_content ho.root (content_eq_some.mpr ⟨i, hi, hk⟩)
    cases h' with
    | new hn _ => simp [hj] at hn
    | failed hf =>
      rcases hf with ⟨hn, -⟩ | ⟨-, hx'⟩
      · simp [hj] at hn
      · exact absurd hx' hx
    | @old j' hj' _ =>
      obtain rfl : j = j' := Option.some.inj (hj.symm.trans hj')
      refine ⟨?_, Or.inl ⟨_, _, rfl, rfl⟩⟩
      cases fl.trunc with
      | false => exact hr
      | true =>
        exact hr.setNode ho.root (h_alone i hi) hk hj hk'
          (fun bit _ => permits_written _ _ _ bit) fun bit _ => permits_written _ _ _ bit
  | new hn hc' =>
    cases h' with
    | old hj _ => simp [h_none.mpr hn] at hj
    | failed hf => simp [h_none.mpr hn, hc'] at hf
    | new hn' _ =>
      obtain ⟨h_read, h_write⟩ := ho.created hn hc'
      exact ⟨hr.create ho.root ho.clean hn h_read h_write, Or.inl ⟨_, _, rfl, rfl⟩⟩
  | failed hf =>
    cases h' with
    | old hj hx =>
      rcases hf with ⟨hn, -⟩ | ⟨-, hx'⟩
      · simp [h_none.mpr hn] at hj
      · exact absurd hx' hx
    | new hn hc =>
      rcases hf with ⟨-, hc'⟩ | ⟨hn', -⟩
      · simp [hc] at hc'
      · exact absurd (h_none.mp hn) hn'
    | failed _ => exact ⟨hr, Or.inr ⟨_, _, rfl, rfl⟩⟩

/-- The handles the two opens yield. -/
theorem OpensForWriting.handleRel (ho : OpensForWriting w p fl mode) (h_counter : Counterpart w v)
    {f f' : OpenFile} (h : Ptfs.OpenResult fl mode p w (.ok f) w')
    (h' : Ptfs.OpenResult fl mode p v (.ok f') v') :
    HandleRel w' v' (some (⟨p, f⟩, fl)) (some (f', fl)) := by
  obtain ⟨i, d, rfl, hi, hk, h_dir⟩ := h.ok fun _ => ho.regular
  obtain ⟨j, _, rfl, hj, -, -⟩ := h'.ok fun _ => ho.regular_counterpart h_counter
  exact .live ho.root ho.clean (h_dir _ ho.parent) ho.writes (content_eq_some.mpr ⟨i, hi, hk⟩) hj

/-! ### Requests -/

/-- The requests the two file systems are compared on. -/
def Compared (s : Session Tree CowFileHandle) : Request Tree → Prop
  | .open' p fl => OpensForWriting s.fs p fl 0
  | .create p fl mode => OpensForWriting s.fs p fl mode
  | .write .. => True
  | .release _ => True
  | _ => False

/-- What the comparison asks for. A write goes through a handle on the inode of its path, and
that inode has no other name: no release of another handle on the path relinked it. A file
with more than one name can be copied in one transfer if it is opened. -/
def Careful (s : Session Tree CowFileHandle) : Request Tree → Prop
  | .open' p _ => ∀ i ∈ s.fs.names p, s.fs.nlink i = 1 ∨ (s.fs.node i).kind.size ≤ maxRwCount
  | .create p _ _ => ∀ i ∈ s.fs.names p, s.fs.nlink i = 1 ∨ (s.fs.node i).kind.size ≤ maxRwCount
  | .write h _ _ => ∀ x ∈ s.handles h,
      s.fs.names x.1.relativePath = some x.1.fd.ino ∧ s.fs.nlink x.1.fd.ino = 1
  | _ => True

instance (s : Session Tree CowFileHandle) : DecidablePred (Careful s)
  | .open' p _ => Option.decidableForallMem (s.fs.names p)
  | .create p _ _ => Option.decidableForallMem (s.fs.names p)
  | .write h _ _ => Option.decidableForallMem (s.handles h)
  | .release _ | .unlink _ | .rename .. | .link .. | .symlink .. | .mknod .. | .mkdir ..
  | .rmdir _ | .chmod .. | .chown .. | .truncate .. | .utimens .. | .setxattr .. => .isTrue trivial

theorem Careful.opening {s : Session Tree CowFileHandle} {r : Request Tree} (h : Careful s r)
    (hr : r.opening? = some (p, fl, mode)) (hi : s.fs.names p = some i)
    (hk : (s.fs.node i).kind = .reg d) : s.fs.nlink i = 1 ∨ d.length ≤ maxRwCount := by
  have h_size : s.fs.nlink i = 1 ∨ (s.fs.node i).kind.size ≤ maxRwCount := by
    cases r with
    | open' q fl' =>
      obtain ⟨rfl, -⟩ : q = p ∧ _ := by simpa [Request.opening?] using hr
      exact h i hi
    | create q fl' mode' =>
      obtain ⟨rfl, -⟩ : q = p ∧ _ := by simpa [Request.opening?] using hr
      exact h i hi
    | _ => simp [Request.opening?] at hr
  rwa [hk] at h_size

/-- The two file systems between two requests. -/
structure InStep (sha1 : Bytes → Bytes) (s : Session Tree CowFileHandle) (t : Session Tree OpenFile) :
    Prop where
  related : Related sha1 s.fs t.fs s.handles t.handles
  opened : t.opened = s.opened

namespace InStep

variable {s : Session Tree CowFileHandle} {t : Session Tree OpenFile} {r : Request Tree}

private theorem openedAfter_eq (h : t.opened = s.opened) (r : Request Tree) :
    t.openedAfter r = s.openedAfter r := by
  cases r <;> simp [Session.openedAfter, h]

/-- An open. -/
theorem serve_opening (h : InStep sha1 s t) (hr : r.opening? = some (p, fl, mode))
    (ho : OpensForWriting s.fs p fl mode) (h_careful : Careful s r) (c : Caller) :
    InStep sha1 ((cowfsHandler sha1).serve s c r).2 (ptfsHandler.serve t c r).2 := by
  have h_reg : ∀ i, s.fs.names p = some i → ∃ d, (s.fs.node i).kind = .reg d ∧
      (s.fs.nlink i = 1 ∨ d.length ≤ maxRwCount) := by
    intro i hi
    obtain ⟨d, hk⟩ := ho.regular hi
    exact ⟨d, hk, h_careful.opening hr hi hk⟩
  -- what each of the two does
  have h_cow : (machine Tree).Wp ((cowfsHandler sha1).answer s c.tid r) c.errno s.fs
      fun a _ w' => ∃ w₁ f, Unshared sha1 s.fs p w₁ ∧ Ptfs.OpenResult fl mode p w₁ f w' ∧
        a = (f.map (CowFileHandle.mk p)).map .opened := by
    rw [cowfsHandler_answer_opening hr]
    refine wp_reply (wp_openBroken h.related.env ho.clean ho.root ho.parent ho.writes h_reg
      fun e' w₁ hu => ?_)
    have ho₁ := ho.unshared hu
    have h_env := h.related.env.unshared ho.clean ho.root hu
    refine Ptfs.wp_create ho₁.parent (fun i hi => ?_) fun f e'' w' hf => ⟨w₁, f, hu, hf, rfl⟩
    obtain ⟨d, hk⟩ := ho₁.regular hi
    exact ⟨d, hk, h_env.access p i d hi hk⟩
  have h_ptfs : (machine Tree).Wp (ptfsHandler.answer t c.tid r) c.errno t.fs
      fun a _ v' => ∃ f, Ptfs.OpenResult fl mode p t.fs f v' ∧ a = f.map .opened := by
    have hv := h.related.counterpart
    rw [ptfsHandler_answer_opening hr]
    refine wp_reply (Ptfs.wp_create ?_ (fun j hj => ?_) fun f e' v' hf => ⟨f, hf, rfl⟩)
    · rw [hv.isDir (by simpa using ho.root), ho.parent]
    · obtain ⟨d, hk⟩ := ho.regular_counterpart hv hj
      exact ⟨d, hk, hv.access p j d ho.root hj hk⟩
  obtain ⟨a, e, w', ⟨w₁, f, hu, hf, rfl⟩, h_serve⟩ := Handler.serve_of_wp h_cow
  obtain ⟨a', e', v', ⟨f', hf', rfl⟩, h_serve'⟩ := Handler.serve_of_wp h_ptfs
  rw [h_serve, h_serve']
  have ho₁ := ho.unshared hu
  -- breaking the hard link is not seen from the other side
  have h_rel : Related sha1 w₁ t.fs s.handles t.handles :=
    h.related.of_kind (h.related.env.unshared ho.clean ho.root hu) hu.keeps.cred
      fun q hq => hu.kind?_workdir hq
  -- and behind it what is opened has no other name, so that it may be emptied
  have h_alone : ∀ i, w₁.names p = some i → Alone w₁ p i := by
    intro i hi
    rcases hu.target with ⟨-, hn⟩ | ⟨-, j, -, h_alone, -⟩
    · simp [hn] at hi
    · exact Option.some.inj (h_alone.names.symm.trans hi) ▸ h_alone
  obtain ⟨h_rel', h_replies⟩ := h_rel.openResult ho₁ h_alone hf hf'
  rcases h_replies with ⟨g, g', rfl, rfl⟩ | ⟨x, x', rfl, rfl⟩
  · refine ⟨?_, openedAfter_eq h.opened r⟩
    change Related sha1 w' v' (s.handlesAfter r (.ok (.opened ⟨p, g⟩)))
      (t.handlesAfter r (.ok (.opened g')))
    rw [Session.handlesAfter_opened hr, Session.handlesAfter_opened hr, h.opened]
    exact h_rel'.opened _ (ho₁.handleRel h_rel.counterpart hf hf')
  · refine ⟨?_, openedAfter_eq h.opened r⟩
    change Related sha1 w' v' (s.handlesAfter r (.error x)) (t.handlesAfter r (.error x'))
    rwa [Session.handlesAfter_not_opened hr, Session.handlesAfter_not_opened hr]

/-- A write. -/
theorem serve_write (h : InStep sha1 s t) {n : ℕ} {buf : Bytes} {off : ℕ}
    (h_careful : Careful s (.write n buf off)) (c : Caller) :
    InStep sha1 ((cowfsHandler sha1).serve s c (.write n buf off)).2
      (ptfsHandler.serve t c (.write n buf off)).2 := by
  have h_handle := h.related.handles n
  rcases ha : s.handles n with _ | ⟨fh, fl⟩ <;> rcases hb : t.handles n with _ | ⟨f, fl'⟩ <;>
    rw [ha, hb] at h_handle <;> cases h_handle
  case none.none.closed =>
    rw [Handler.serve_write_closed ha, Handler.serve_write_closed hb]
    exact h
  case some.some.live p i j d h_root h_clean h_parent h_reg hj hf =>
    obtain ⟨h_ino, h_one⟩ := h_careful _ ha
    have h_alone : Alone s.fs p i := alone_of_nlink h_ino h_one
    have h_access : fl.access ≠ .rdonly := by simpa [OpenFlags.writes] using hf
    obtain ⟨k, hk_names, hk⟩ := content_eq_some.mp h_reg
    obtain rfl : k = i := Option.some.inj (hk_names.symm.trans h_alone.names)
    obtain ⟨j', hj', hk'⟩ := h.related.counterpart.names_of_content h_root h_reg
    obtain rfl : j = j' := Option.some.inj (hj.symm.trans hj')
    rw [Handler.serve_sys (Handler.answer_write_live ha c.tid buf off),
      Handler.serve_sys (Handler.answer_write_live hb c.tid buf off)]
    refine ⟨?_, h.opened⟩
    change Related sha1 (answer s.fs (.pwrite ⟨k, fl.access, fl.append⟩ buf off)).2
      (answer t.fs (.pwrite ⟨j, fl.access, fl.append⟩ buf off)).2 s.handles t.handles
    rw [answer_pwrite (f := ⟨k, fl.access, fl.append⟩) hk h_access buf off,
      answer_pwrite (f := ⟨j, fl.access, fl.append⟩) hk' h_access buf off]
    exact h.related.setNode h_root h_alone hk hj hk' (fun bit _ => permits_written _ _ _ bit)
      fun bit _ => permits_written _ _ _ bit

/-- A release. -/
theorem serve_release (hs : Function.Injective sha1) (h : InStep sha1 s t) (n : ℕ) (c : Caller) :
    InStep sha1 ((cowfsHandler sha1).serve s c (.release n)).2
      (ptfsHandler.serve t c (.release n)).2 := by
  have h_handle := h.related.handles n
  rcases ha : s.handles n with _ | ⟨fh, fl⟩ <;> rcases hb : t.handles n with _ | ⟨f, fl'⟩ <;>
    rw [ha, hb] at h_handle <;> cases h_handle
  case none.none.closed =>
    rw [Handler.serve_release_closed ha, Handler.serve_release_closed hb]
    exact h
  case some.some.live p i j d h_root h_clean h_parent h_reg hj hf =>
    obtain ⟨k, hk_names, hk⟩ := content_eq_some.mp h_reg
    have hw := h.related.env
    -- the release of cowfs links the path, or leaves a file that is too long alone
    have h_cow : (machine Tree).Wp ((cowfsHandler sha1).answer s c.tid (.release n)) c.errno s.fs
        fun _ _ w' => Related sha1 w' t.fs s.handles t.handles := by
      rw [Handler.answer_release_live ha]
      refine wp_reply (wp_sys (answer_close _) ?_)
      rw [if_pos hf]
      refine wp_seq (wp_findOutRepoAndMaybeHardlink hw h_clean h_root h_parent hk_names hk
        (fun _ e' w' hd => wp_pure ?_) fun _ e' w' h_keeps h_names => wp_pure ?_)
      · exact h.related.of_kind (hw.deduped hs h_clean h_root hk_names hk hd) hd.keeps.cred
          fun q hq => hd.kind?_workdir hw h_root hk_names hk hq
      · exact h.related.of_kind (hw.same h_keeps h_names) h_keeps.cred
          fun q _ => h_keeps.kind? (by rw [h_names])
    obtain ⟨a, e, w', h_rel, h_serve⟩ := Handler.serve_of_wp h_cow
    rw [h_serve, Handler.serve_sys (Handler.answer_release_live hb c.tid)]
    exact ⟨h_rel.opened n .closed, h.opened⟩

/-- **One request.** -/
theorem serve (hs : Function.Injective sha1) (h : InStep sha1 s t) (c : Caller)
    (hr : Compared s r) (h_careful : Careful s r) :
    InStep sha1 ((cowfsHandler sha1).serve s c r).2 (ptfsHandler.serve t c r).2 := by
  cases r with
  | open' p fl => exact h.serve_opening rfl hr h_careful c
  | create p fl mode => exact h.serve_opening rfl hr h_careful c
  | write n buf off => exact h.serve_write h_careful c
  | release n => exact h.serve_release hs n c
  | _ => exact hr.elim

/-- Any number of requests. -/
theorem serveAll (hs : Function.Injective sha1) (h : InStep sha1 s t)
    {rs : List (Caller × Request Tree)}
    (h_rs : (cowfsHandler sha1).Along (fun s _ r => Compared s r ∧ Careful s r) s rs) :
    InStep sha1 ((cowfsHandler sha1).serveAll s rs) (ptfsHandler.serveAll t rs) := by
  induction rs generalizing s t with
  | nil => exact h
  | cons r rs ih =>
    obtain ⟨⟨hr, h_careful⟩, h_rs⟩ := h_rs
    exact ih (h.serve hs r.1 hr h_careful) h_rs

end InStep

/-- **Transparency.** Over requests that are careful, every working file has the content it has
without shared inodes. -/
theorem transparent (hs : Function.Injective sha1) (hw : Env sha1 w) (hv : Counterpart w v)
    {rs : List (Caller × Request Tree)}
    (h_rs : (cowfsHandler sha1).Along (fun s _ r => Compared s r ∧ Careful s r) (.start w) rs) :
    ∀ p, p.root = .workdir → ((cowfsHandler sha1).serveAll (.start w) rs).fs.content p
      = (ptfsHandler.serveAll (.start v) rs).fs.content p := by
  have h : InStep sha1 (.start w) (.start v) := ⟨⟨hw, hv, fun _ => .closed⟩, rfl⟩
  exact fun p hp => ((h.serveAll hs h_rs).related.counterpart.content hp).symm

/-! ### A write that is lost -/

/-- On an empty mount nothing is shared. -/
theorem env_emptyMount : Env id emptyMount :=
  .of_dom Function.injective_id rfl (by decide) (by decide)

theorem counterpart_emptyMount : Counterpart emptyMount emptyMount where
  kind _ _ := rfl
  unshared p q i hp hq hpi hqi := by
    have h_top : ∀ r : Path Tree, r.root = .workdir → emptyMount.names r = some i →
        r = ⟨.workdir, []⟩ := by
      rintro ⟨_, rel⟩ rfl hr
      have h_rel : rel = [] := by
        by_contra h
        simp [emptyMount, h] at hr
      rw [h_rel]
    rw [h_top p hp hpi, h_top q hq hqi]
  access _ _ _ _ _ _ := by simp [Cred.permits, emptyMount]
  cred := rfl

/-- `O_WRONLY | O_CREAT`, and the mode of the file. -/
def writeFlags : OpenFlags := ⟨.wronly, true, false, false, false⟩

theorem OpensForWriting.of_user_root (h_cred : w.cred.uid = 0) (h_root : p.root = .workdir)
    (h_dot : ∀ n ∈ p.rel, '.' ∉ n) (h_parent : w.isDir p.parent)
    (h_target : w.names p = none ∨ (w.content p).isSome) (hf : fl.writes) :
    OpensForWriting w p fl mode where
  writes := hf
  root := h_root
  clean := clean_of_no_dot h_dot
  parent := h_parent
  target := h_target.imp_right Option.isSome_iff_exists.mp
  created _ _ := by simp [Cred.permits, h_cred]

/-- Two handles are open on one file. Both are written before the first release. -/
def carefulWrites : List (Caller × Request Tree) :=
  [.create fileA writeFlags 0o644, .create fileA writeFlags 0o644, .write 0 [120] 0,
    .write 1 [121] 1, .release 0, .release 1].map (Prod.mk ⟨1, .ENOENT⟩)

/-- The second handle is written after the first was released, in a mount that has another file
of the content the first one wrote. -/
def lostWrites : List (Caller × Request Tree) :=
  [.create fileB writeFlags 0o644, .write 0 [120] 0, .release 0, .create fileA writeFlags 0o644,
    .create fileA writeFlags 0o644, .write 1 [120] 0, .release 1, .write 2 [121] 0,
    .release 2].map (Prod.mk ⟨1, .ENOENT⟩)

theorem lostWrites_not_transparent :
    (cowfsHandler id).Along (fun s _ r => Compared s r) (.start emptyMount) lostWrites ∧
      ((cowfsHandler id).serveAll (.start emptyMount) lostWrites).opened = 3 ∧
      (∀ h < 3, ((cowfsHandler id).serveAll (.start emptyMount) lostWrites).handles h = none) ∧
      ((cowfsHandler id).serveAll (.start emptyMount) lostWrites).fs.content fileA = some [120] ∧
      (ptfsHandler.serveAll (.start emptyMount) lostWrites).fs.content fileA = some [121] := by
  refine ⟨⟨?_, trivial, trivial, ?_, ?_, trivial, trivial, trivial, trivial, trivial⟩, ?_, ?_, ?_,
    ?_⟩
  · exact .of_user_root rfl rfl (by decide) (by decide) (by decide) rfl
  · exact .of_user_root rfl rfl (by decide) (by decide +kernel) (by decide +kernel) rfl
  · exact .of_user_root rfl rfl (by decide) (by decide +kernel) (by decide +kernel) rfl
  all_goals decide +kernel

theorem transparent_carefulWrites :
    ((cowfsHandler id).serveAll (.start emptyMount) carefulWrites).fs.content fileA
      = (ptfsHandler.serveAll (.start emptyMount) carefulWrites).fs.content fileA := by
  have h_along : (cowfsHandler id).Along (fun s _ r => Compared s r ∧ Careful s r)
      (.start emptyMount) carefulWrites := by
    refine ⟨⟨?_, by decide +kernel⟩, ⟨?_, by decide +kernel⟩, ⟨trivial, by decide +kernel⟩,
      ⟨trivial, by decide +kernel⟩, ⟨trivial, trivial⟩, ⟨trivial, trivial⟩, trivial⟩
    · exact .of_user_root rfl rfl (by decide) (by decide) (by decide) rfl
    · exact .of_user_root rfl rfl (by decide) (by decide +kernel) (by decide +kernel) rfl
  exact transparent Function.injective_id env_emptyMount counterpart_emptyMount h_along fileA rfl

end GitlstreeFS.Cowfs
