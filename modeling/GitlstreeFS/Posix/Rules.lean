import GitlstreeFS.Posix.Machine

/-!
# Rules of the system calls

What each call answers in the cases that matter, in terms of the names and inodes of the
state. A proof about a program uses these rules and unfolds no call.

Most rules speak of the kind of the inode at a path: `w.kind? p` is that kind, `none` where
the path does not exist.
-/

namespace Posix

open Effect

namespace FileSystem

variable {Root : Type}

/-- The kind of the inode at a name. -/
def kind? (w : FileSystem Root) (p : Path Root) : Option (Kind Root) :=
  (w.names p).map fun i => (w.node i).kind

variable {w : FileSystem Root} {p : Path Root} {i : ℕ}

theorem kind?_eq_some {k : Kind Root} :
    w.kind? p = some k ↔ ∃ i, w.names p = some i ∧ (w.node i).kind = k := by
  simp [kind?, Option.map_eq_some_iff]

@[simp] theorem kind?_eq_none : w.kind? p = none ↔ w.names p = none := by
  simp [kind?]

theorem kind?_of_names (h : w.names p = some i) : w.kind? p = some (w.node i).kind := by
  simp [kind?, h]

theorem isDir_iff : w.isDir p = true ↔ w.kind? p = some .dir := by
  unfold isDir inode? kind?
  rcases h : w.names p with _ | i
  · simp
  · rcases h' : w.node i with ⟨_ | _ | _ | _, a⟩ <;> simp [h']

theorem content_iff {d : Bytes} : w.content p = some d ↔ w.kind? p = some (.reg d) := by
  unfold content inode? kind?
  rcases h : w.names p with _ | i
  · simp
  · rcases h' : w.node i with ⟨_ | _ | _ | _, a⟩ <;> simp [h']

theorem content_eq_some {d : Bytes} :
    w.content p = some d ↔ ∃ i, w.names p = some i ∧ (w.node i).kind = .reg d :=
  content_iff.trans kind?_eq_some

/-- What a name shows is determined by the kind of its inode. -/
theorem content_congr {w' : FileSystem Root} {q : Path Root} (h : w'.kind? q = w.kind? p) :
    w'.content q = w.content p := by
  ext d
  rw [content_iff, content_iff, h]

theorem kind?_eq_map (w : FileSystem Root) (p : Path Root) :
    w.kind? p = (w.inode? p).map Inode.kind := by
  unfold kind? inode?
  rw [Option.map_map]
  rfl

/-- Writing an inode changes what its names show and nothing else. -/
theorem setNode_inode?_of_ne {n : Inode Root} (h : w.names p ≠ some i) :
    (w.setNode i n).inode? p = w.inode? p := by
  unfold inode?
  rw [setNode_names]
  rcases hk : w.names p with _ | k
  · rfl
  · have h_ne : k ≠ i := fun h_eq => h (h_eq ▸ hk)
    simp [h_ne]

theorem setNode_inode? {n : Inode Root} (h : w.names p = some i) :
    (w.setNode i n).inode? p = some n := by
  simp [inode?, h]

theorem isDir_eq_false_of_names_none (h : w.names p = none) : w.isDir p = false := by
  simp [isDir, inode?, h]

/-- A directory is not a name that is free. -/
theorem parent_ne_of_free {q : Path Root} (hp : w.isDir p) (hq : w.names q = none) : p ≠ q := by
  rintro rfl
  simp [isDir_eq_false_of_names_none hq] at hp

theorem parentError_of_isDir (h : w.isDir p.parent) : w.parentError p = none := by
  rw [isDir_iff, kind?_eq_some] at h
  obtain ⟨i, hi, hk⟩ := h
  rcases hn : w.node i with ⟨k, a⟩
  obtain rfl : k = .dir := by rw [hn] at hk; exact hk
  simp [parentError, inode?, hi, hn]

theorem isDir_of_parentError (h : w.parentError p = none) : w.isDir p.parent := by
  unfold parentError at h
  unfold isDir
  rcases hn : w.inode? p.parent with _ | ⟨_ | _ | _ | _, a⟩ <;> simp [hn] at h ⊢

theorem missing_of_isDir (h : w.isDir p.parent) : w.missing p = .ENOENT := by
  rw [missing, parentError_of_isDir h]
  rfl

theorem missing_of_free_parent (h : w.names p.parent = none ∨ w.isDir p.parent) :
    w.missing p = .ENOENT := by
  rcases h with h | h
  · simp [missing, parentError, inode?, h]
  · exact missing_of_isDir h

/-- A path that is no symbolic link resolves to itself. -/
theorem follow_self (h : ∀ t, w.kind? p ≠ some (.symlink t)) : w.follow p = .ok p := by
  unfold follow
  rw [followN]
  rcases hn : w.inode? p with _ | ⟨_ | _ | t | _, a⟩
  · rfl
  · rfl
  · rfl
  · refine absurd ?_ (h t)
    simp only [inode?, Option.map_eq_some_iff] at hn
    obtain ⟨i, hi, hk⟩ := hn
    simp [kind?, hi, hk]
  · rfl

theorem follow_of_missing (h : w.names p = none) : w.follow p = .ok p :=
  follow_self fun t ht => by rw [kind?_eq_none.mpr h] at ht; exact absurd ht (by simp)

theorem resolve_nofollow (h : w.names p = some i) : w.resolve p true = .ok i := by
  simp [resolve, h]

theorem resolve_follow (h : w.names p = some i) (hs : ∀ t, (w.node i).kind ≠ .symlink t) :
    w.resolve p false = .ok i := by
  have h_follow : w.follow p = .ok p :=
    follow_self fun t ht => hs t (by rw [kind?_of_names h] at ht; exact Option.some.inj ht)
  simp [resolve, h_follow, h]

/-- What a path resolves to has a name. -/
theorem exists_names_of_resolve {nofollow : Bool} (h : w.resolve p nofollow = .ok i) :
    ∃ q, w.names q = some i := by
  unfold resolve at h
  split at h
  · simp at h
  · next q _ =>
    rcases hq : w.names q with _ | j
    · simp [hq] at h
    · exact ⟨q, by simp only [hq, Except.ok.injEq] at h; rw [hq, h]⟩

theorem resolve_missing (h : w.names p = none) (nofollow : Bool) :
    w.resolve p nofollow = .error (w.missing p) := by
  cases nofollow <;> simp [resolve, follow_of_missing h, h]

/-! ### Link counts -/

theorem stNlink_of_not_dir (h : (w.node i).kind ≠ .dir) : w.stNlink i = w.nlink i := by
  unfold stNlink
  split
  · exact absurd ‹_› h
  · rfl

/-- A directory with a name has link count at least two. -/
theorem one_lt_stNlink_of_dir (hp : w.names p = some i) (h : (w.node i).kind = .dir) :
    1 < w.stNlink i := by
  have := w.nlink_pos hp
  rw [stNlink, h]
  dsimp only
  omega

@[simp] theorem stat_ino (i : ℕ) : (w.stat i).ino = i := rfl

@[simp] theorem stat_nlink (i : ℕ) : (w.stat i).nlink = w.stNlink i := rfl

/-! ### Frames -/

/-- `w'` comes after `w`, and the inodes `w` had are what they were. Names may differ. -/
structure Keeps (w w' : FileSystem Root) : Prop where
  node : ∀ i < w.next, w'.node i = w.node i
  next : w.next ≤ w'.next
  cred : w'.cred = w.cred
  now : w'.now = w.now

namespace Keeps

variable {w₁ w₂ w₃ : FileSystem Root}

protected theorem refl (w : FileSystem Root) : Keeps w w :=
  ⟨fun _ _ => rfl, le_refl _, rfl, rfl⟩

protected theorem trans (h : Keeps w₁ w₂) (h' : Keeps w₂ w₃) : Keeps w₁ w₃ where
  node i hi := (h'.node i (lt_of_lt_of_le hi h.next)).trans (h.node i hi)
  next := h.next.trans h'.next
  cred := h'.cred.trans h.cred
  now := h'.now.trans h.now

theorem node_of_names (h : Keeps w₁ w₂) (hp : w₁.names p = some i) : w₂.node i = w₁.node i :=
  h.node i (w₁.names_lt p i hp)

/-- A name that still has its inode still shows what it showed. -/
theorem kind? (h : Keeps w₁ w₂) (hp : w₂.names p = w₁.names p) : w₂.kind? p = w₁.kind? p := by
  unfold FileSystem.kind?
  rw [hp]
  rcases hi : w₁.names p with _ | i
  · rfl
  · simp [h.node_of_names hi]

theorem isDir (h : Keeps w₁ w₂) (hp : w₂.names p = w₁.names p) : w₂.isDir p = w₁.isDir p := by
  rw [Bool.eq_iff_iff, isDir_iff, isDir_iff, h.kind? hp]

theorem content (h : Keeps w₁ w₂) (hp : w₂.names p = w₁.names p) :
    w₂.content p = w₁.content p := by
  ext d
  rw [content_iff, content_iff, h.kind? hp]

end Keeps

theorem keeps_clearName [DecidableEq Root] (p : Path Root) : Keeps w (w.clearName p) :=
  ⟨fun _ _ => rfl, le_refl _, rfl, rfl⟩

theorem keeps_setName [DecidableEq Root] (p : Path Root) (i : ℕ) : Keeps w (w.setName p i) :=
  ⟨fun _ _ => rfl, le_max_left _ _, rfl, rfl⟩

theorem keeps_moveName [DecidableEq Root] (a b : Path Root) : Keeps w (w.moveName a b) :=
  ⟨fun _ _ => rfl, le_refl _, rfl, rfl⟩

theorem keeps_alloc (n : Inode Root) : Keeps w (w.alloc n) :=
  ⟨fun i hi => by simp [Nat.ne_of_lt hi], Nat.le_succ _, rfl, rfl⟩

/-- Writing an inode that was handed out later. -/
theorem Keeps.setNode {w₁ w₂ : FileSystem Root} (h : Keeps w₁ w₂) (hi : w₁.next ≤ i)
    (n : Inode Root) : Keeps w₁ (w₂.setNode i n) where
  node j hj := by
    rw [setNode_node, Function.update_of_ne (by omega)]
    exact h.node j hj
  next := h.next
  cred := h.cred
  now := h.now

end FileSystem

variable {Root : Type} [DecidableEq Root] {w : FileSystem Root} {p : Path Root} {i : ℕ}

open FileSystem

/-! ### Files -/

/-- Opening a readable regular file for reading. -/
theorem answer_openat_rdonly {d : Bytes} (h : w.names p = some i) (hk : (w.node i).kind = .reg d)
    (hr : w.cred.permits (w.node i).attr 2) (mode : Mode) :
    answer w (.openat p .rdonly mode) = (.ok ⟨i, .rdonly, false⟩, w) := by
  have h_follow : w.follow p = .ok p := follow_self fun t ht => by
    rw [kind?_of_names h, hk] at ht
    exact absurd ht (by simp)
  change w.openat p .rdonly mode = _
  simp [openat, OpenFlags.rdonly, h_follow, h, openIno, hk, OpenFlags.writes, hr]

/-- Opening a regular file that may not be read. -/
theorem answer_openat_forbidden {d : Bytes} (h : w.names p = some i) (hk : (w.node i).kind = .reg d)
    (hr : ¬ w.cred.permits (w.node i).attr 2) (mode : Mode) :
    answer w (.openat p .rdonly mode) = (.error .EACCES, w) := by
  have h_follow : w.follow p = .ok p := follow_self fun t ht => by
    rw [kind?_of_names h, hk] at ht
    exact absurd ht (by simp)
  change w.openat p .rdonly mode = _
  simp [openat, OpenFlags.rdonly, h_follow, h, openIno, hk, OpenFlags.writes, hr]

/-- Opening an accessible regular file. -/
theorem answer_openat {d : Bytes} (h : w.names p = some i) (hk : (w.node i).kind = .reg d)
    (hr : w.cred.permits (w.node i).attr 2) (hw : w.cred.permits (w.node i).attr 1)
    {fl : OpenFlags} (hx : ¬ (fl.creat ∧ fl.excl)) (mode : Mode) :
    answer w (.openat p fl mode) = (.ok ⟨i, fl.access, fl.append⟩,
      if fl.trunc then w.setNode i ⟨.reg [], (w.node i).attr.written w.now⟩ else w) := by
  have h_follow : w.follow p = .ok p := follow_self fun t ht => by
    rw [kind?_of_names h, hk] at ht
    exact absurd ht (by simp)
  change w.openat p fl mode = _
  rw [openat, if_neg hx]
  simp only [h_follow, h, openIno, hk, hr, hw]
  cases fl.trunc <;> simp

theorem answer_openat_excl (h : w.names p ≠ none) {fl : OpenFlags} (hc : fl.creat) (hx : fl.excl)
    (mode : Mode) : answer w (.openat p fl mode) = (.error .EEXIST, w) := by
  obtain ⟨i, hi⟩ := Option.ne_none_iff_exists'.mp h
  change w.openat p fl mode = _
  simp [openat, hc, hx, hi]

theorem answer_openat_missing (h : w.names p = none) {fl : OpenFlags} (hc : fl.creat = false)
    (mode : Mode) : answer w (.openat p fl mode) = (.error (w.missing p), w) := by
  change w.openat p fl mode = _
  simp [openat, hc, follow_of_missing h, h]

/-- Creating a regular file. -/
theorem answer_openat_create (h : w.names p = none) (hd : w.isDir p.parent) {fl : OpenFlags}
    (hc : fl.creat) (mode : Mode) :
    answer w (.openat p fl mode) = (.ok ⟨w.next, fl.access, fl.append⟩,
      (w.alloc (w.newInode (.reg []) mode)).setName p w.next) := by
  have h_create : w.createFile p fl mode = (.ok ⟨w.next, fl.access, fl.append⟩,
      (w.alloc (w.newInode (.reg []) mode)).setName p w.next) := by
    simp [createFile, makeNode, h, parentError_of_isDir hd]
  change w.openat p fl mode = _
  simp [openat, hc, follow_of_missing h, h, h_create]

theorem answer_pwrite {f : OpenFile} {d : Bytes} (hk : (w.node f.ino).kind = .reg d)
    (ha : f.access ≠ .rdonly) (data : Bytes) (off : ℕ) :
    answer w (.pwrite f data off) = (.ok data.length, w.setNode f.ino
      ⟨.reg (writeAt d (if f.append then d.length else off) data),
        (w.node f.ino).attr.written w.now⟩) := by
  change w.pwrite f data off = _
  simp [FileSystem.pwrite, ha, hk]

theorem answer_sendfile {out inp : OpenFile} {src dst : Bytes}
    (hin : (w.node inp.ino).kind = .reg src) (hout : (w.node out.ino).kind = .reg dst)
    (hi : inp.access ≠ .wronly) (ho : out.access ≠ .rdonly) (n : ℕ) :
    answer w (.sendfile out inp n) = (.ok (src.take (min n maxRwCount)).length, w.setNode out.ino
      ⟨.reg (writeAt dst 0 (src.take (min n maxRwCount))), (w.node out.ino).attr.written w.now⟩) := by
  change w.sendfile out inp n = _
  simp [FileSystem.sendfile, hi, ho, hin, hout]

theorem answer_fchmod (f : OpenFile) (mode : Mode) :
    answer w (.fchmod f mode) = (.ok (), w.setAttr f.ino (·.chmod w.now mode)) := rfl

theorem answer_fchown (f : OpenFile) (uid gid : Option ℕ) :
    answer w (.fchown f uid gid) = (.ok (), w.setAttr f.ino (·.chown w.now uid gid)) := rfl

theorem answer_futimens (f : OpenFile) (atime mtime : Option ℕ) :
    answer w (.futimens f atime mtime)
      = (.ok (), w.setAttr f.ino (·.utimes w.now atime mtime)) := rfl

/-- Allocating space for a regular file never fails so that the result of `posix_fallocate`
matters: the file is extended unless nothing was asked for. -/
theorem answer_posixFallocate {f : OpenFile} {d : Bytes} (hk : (w.node f.ino).kind = .reg d)
    (ha : f.access ≠ .rdonly) (n : ℕ) : ∃ r,
    answer w (.posixFallocate f n) = (.ok r, if n = 0 then w else
      w.setNode f.ino ⟨.reg (resize d (max n d.length)), (w.node f.ino).attr⟩) := by
  refine ⟨(w.posixFallocate f n).1, ?_⟩
  change (Except.ok (w.posixFallocate f n).1, (w.posixFallocate f n).2) = _
  by_cases hn : n = 0 <;> simp [FileSystem.posixFallocate, ha, hk, hn]

theorem answer_fstat (f : OpenFile) : answer w (.fstat f) = (.ok (w.stat f.ino), w) := rfl

theorem answer_read {f : OpenFile} {d : Bytes} (hk : (w.node f.ino).kind = .reg d)
    (ha : f.access ≠ .wronly) (n : ℕ) :
    answer w (.read f n) = (.ok (d.take (min n maxRwCount)), w) := by
  change (w.read f n, w) = _
  simp [FileSystem.read, ha, hk]

theorem answer_close (f : OpenFile) : answer w (.close f) = (.ok (), w) := rfl

/-! ### Names -/

theorem answer_fstatat_of_resolve {nofollow : Bool} (h : w.resolve p nofollow = .ok i) :
    answer w (.fstatat p nofollow) = (.ok (w.stat i), w) := by
  change (w.fstatat p nofollow, w) = _
  simp [fstatat, h]

theorem answer_fstatat_missing (h : w.names p = none) (nofollow : Bool) :
    answer w (.fstatat p nofollow) = (.error (w.missing p), w) := by
  change (w.fstatat p nofollow, w) = _
  simp [fstatat, resolve_missing h]

theorem answer_mkdirat (h : w.names p = none) (hd : w.isDir p.parent) (mode : Mode) :
    answer w (.mkdirat p mode) = (.ok (), (w.alloc (w.newInode .dir mode)).setName p w.next) := by
  change w.makeNode p _ = _
  simp [makeNode, h, parentError_of_isDir hd]

theorem answer_mkdirat_exists (h : w.names p ≠ none) (mode : Mode) :
    answer w (.mkdirat p mode) = (.error .EEXIST, w) := by
  obtain ⟨i, hi⟩ := Option.ne_none_iff_exists'.mp h
  change w.makeNode p _ = _
  simp [makeNode, hi]

theorem answer_unlinkat_missing (h : w.names p = none) :
    answer w (.unlinkat p) = (.error (w.missing p), w) := by
  change w.unlinkat p = _
  simp [unlinkat, h]

theorem answer_unlinkat (h : w.names p ≠ none) (hd : w.isDir p = false) :
    answer w (.unlinkat p) = (.ok (), w.clearName p) := by
  change w.unlinkat p = _
  simp [unlinkat, h, hd]

theorem answer_rmdirat (hd : w.isDir p) (he : w.entriesBelow p = ∅) :
    answer w (.rmdirat p) = (.ok (), w.clearName p) := by
  have h : w.names p ≠ none := fun h => by simp [isDir_eq_false_of_names_none h] at hd
  change w.rmdirat p = _
  simp [rmdirat, h, hd, he]

theorem answer_linkat {a b : Path Root} (ha : w.names a = some i) (hd : w.isDir a = false)
    (hb : w.names b = none) (hp : w.isDir b.parent) :
    answer w (.linkat a b) = (.ok (), w.setName b i) := by
  change w.linkat a b = _
  simp [linkat, ha, hd, hb, parentError_of_isDir hp]

theorem answer_linkat_missing {a b : Path Root} (ha : w.names a = none) :
    answer w (.linkat a b) = (.error (w.missing a), w) := by
  change w.linkat a b = _
  simp [linkat, ha]

/-- Making a directory fails or makes a new one. -/
theorem answer_mkdirat_cases (w : FileSystem Root) (p : Path Root) (mode : Mode) :
    (∃ x, answer w (.mkdirat p mode) = (.error x, w)) ∨ w.names p = none ∧
      answer w (.mkdirat p mode) = (.ok (), (w.alloc (w.newInode .dir mode)).setName p w.next) := by
  change (∃ x, w.makeNode p _ = _) ∨ _ ∧ w.makeNode p _ = _
  unfold makeNode
  split
  · exact Or.inl ⟨_, rfl⟩
  · exact Or.inl ⟨_, rfl⟩
  · next h _ => exact Or.inr ⟨h, rfl⟩

/-- Removing a name fails or removes it. -/
theorem answer_unlinkat_cases (w : FileSystem Root) (p : Path Root) :
    (∃ x, answer w (.unlinkat p) = (.error x, w)) ∨ answer w (.unlinkat p) = (.ok (), w.clearName p) := by
  change (∃ x, w.unlinkat p = _) ∨ w.unlinkat p = _
  unfold unlinkat
  split_ifs
  · exact Or.inl ⟨_, rfl⟩
  · exact Or.inl ⟨_, rfl⟩
  · exact Or.inr rfl

theorem answer_rmdirat_cases (w : FileSystem Root) (p : Path Root) :
    (∃ x, answer w (.rmdirat p) = (.error x, w)) ∨ answer w (.rmdirat p) = (.ok (), w.clearName p) := by
  change (∃ x, w.rmdirat p = _) ∨ w.rmdirat p = _
  unfold rmdirat
  split
  · exact Or.inl ⟨_, rfl⟩
  · split
    · exact Or.inl ⟨_, rfl⟩
    · split
      · exact Or.inl ⟨_, rfl⟩
      · exact Or.inr rfl

/-- Linking fails or makes one new name of a file. -/
theorem answer_linkat_cases (w : FileSystem Root) (a b : Path Root) :
    (∃ x, answer w (.linkat a b) = (.error x, w)) ∨
      ∃ i, w.names a = some i ∧ w.isDir a = false ∧ w.names b = none ∧
        answer w (.linkat a b) = (.ok (), w.setName b i) := by
  change (∃ x, w.linkat a b = (.error x, w)) ∨ ∃ i, _ ∧ _ ∧ _ ∧ w.linkat a b = (.ok (), _)
  unfold linkat
  split
  · exact Or.inl ⟨_, rfl⟩
  · next i hi =>
    split_ifs with h_dir h_b
    · exact Or.inl ⟨_, rfl⟩
    · exact Or.inl ⟨_, rfl⟩
    · split
      · exact Or.inl ⟨_, rfl⟩
      · exact Or.inr ⟨i, hi, by simpa using h_dir, by simpa using h_b, rfl⟩

/-- Renaming a file, possibly onto another file of a different inode. -/
theorem answer_renameat2 {a b : Path Root} (ha : w.names a = some i) (hda : w.isDir a = false)
    (hdb : w.isDir b = false) (hb : w.names b ≠ some i) (hp : w.isDir b.parent) :
    answer w (.renameat2 a b .none) = (.ok (), w.moveName a b) := by
  have hab : a ≠ b := fun h => hb (h ▸ ha)
  have h_dir : (w.clearName b).isDir a = false := by
    rw [← hda]
    simp only [isDir, inode?, clearName_names, Function.update_of_ne hab]
    rfl
  have h_dir' : (w.clearName b).isDir b = false := by
    simp [isDir, inode?]
  have h_replace : w.replaceError a b = none := by
    simp [replaceError, hda, hdb]
  change w.renameat2 a b .none = _
  rw [ne_comm] at hb
  simp [renameat2, ha, parentError_of_isDir hp, hb, h_replace, exchange, h_dir, h_dir', moveName]

/-- Renaming a file to a name of another inode fails or moves the name. -/
theorem answer_renameat2_cases {a b : Path Root} (ha : w.names a = some i)
    (hda : w.isDir a = false) (hb : w.names b ≠ some i) :
    (∃ x, answer w (.renameat2 a b .none) = (.error x, w)) ∨
      answer w (.renameat2 a b .none) = (.ok (), w.moveName a b) := by
  rcases hp : w.parentError b with _ | x
  · rcases hdb : w.isDir b with _ | _
    · exact Or.inr (answer_renameat2 ha hda hdb hb (isDir_of_parentError hp))
    · have h_some : w.names b ≠ none := by
        intro h
        simp [isDir_eq_false_of_names_none h] at hdb
      refine Or.inl ⟨.EISDIR, ?_⟩
      change w.renameat2 a b .none = _
      rw [ne_comm] at hb
      simp [renameat2, ha, hp, hb, replaceError, hda, hdb, h_some]
  · refine Or.inl ⟨x, ?_⟩
    change w.renameat2 a b .none = _
    simp [renameat2, ha, hp]

/-- A rename into something that is no directory fails. -/
theorem answer_renameat2_no_dir {a b : Path Root} (ha : w.names a ≠ none)
    (hp : w.isDir b.parent = false) (fl : RenameFlags) :
    ∃ x, answer w (.renameat2 a b fl) = (.error x, w) := by
  rcases hx : w.parentError b with _ | x
  · simp [isDir_of_parentError hx] at hp
  · refine ⟨x, ?_⟩
    change w.renameat2 a b fl = _
    simp [renameat2, ha, hx]

/-- Renaming one name of an inode onto another one does nothing. -/
theorem answer_renameat2_same {a b : Path Root} (ha : w.names a = some i)
    (hb : w.names b = some i) (hp : w.isDir b.parent) :
    answer w (.renameat2 a b .none) = (.ok (), w) := by
  change w.renameat2 a b .none = _
  simp [renameat2, ha, hb, parentError_of_isDir hp]

/-- Renaming a file fails, does nothing to a name of the same inode, or moves the name. -/
theorem answer_renameat2_file {a b : Path Root} (ha : w.names a = some i) (hda : w.isDir a = false) :
    (∃ x, answer w (.renameat2 a b .none) = (.error x, w)) ∨
      w.names b = some i ∧ answer w (.renameat2 a b .none) = (.ok (), w) ∨
      w.names b ≠ some i ∧ answer w (.renameat2 a b .none) = (.ok (), w.moveName a b) := by
  by_cases hb : w.names b = some i
  · rcases hp : w.isDir b.parent with _ | _
    · exact Or.inl (answer_renameat2_no_dir (by simp [ha]) hp .none)
    · exact Or.inr (Or.inl ⟨hb, answer_renameat2_same ha hb hp⟩)
  · rcases answer_renameat2_cases ha hda hb with h_error | h_ok
    · exact Or.inl h_error
    · exact Or.inr (Or.inr ⟨hb, h_ok⟩)
/-! ### Programs -/

section Wp

variable {α β : Type} {e : Errno} {Q : α → Errno → FileSystem Root → Prop}

/-- A call whose answer is known. -/
theorem wp_sys {c : SysCall Root} {r : Except Errno c.Val} {w' : FileSystem Root}
    {k : Except Errno c.Val → Prog (sig Root) α} (h : answer w c = (r, w'))
    (hk : (machine Root).Wp (k r) (errnoAfter e r) w' Q) :
    (machine Root).Wp (sys c >>= k) e w Q :=
  Machine.wp_call_of_exec (by rw [machine_exec_none, h]) hk

/-- A retried call that succeeds at once. -/
theorem wp_sysUntilOk {c : SysCall Root} {v : c.Val} {w' : FileSystem Root}
    {k : c.Val → Prog (sig Root) α} (h : answer w c = (.ok v, w'))
    (hk : (machine Root).Wp (k v) e w' Q) :
    (machine Root).Wp (sysUntilOk c >>= k) e w Q :=
  Machine.wp_spin_of_exec (by rw [machine_exec_none, h]) hk

theorem wp_seq {p : Prog (sig Root) β} {k : β → Prog (sig Root) α}
    (h : (machine Root).Wp p e w fun b e' w' => (machine Root).Wp (k b) e' w' Q) :
    (machine Root).Wp (p >>= k) e w Q :=
  Machine.wp_bind.mpr h

/-- Looking at the error register. -/
theorem wp_getErrno {k : Errno → Prog (sig Root) α} (h : (machine Root).Wp (k e) e w Q) :
    (machine Root).Wp (Prog.getErrno >>= k) e w Q :=
  h

theorem wp_pure {a : α} (h : Q a e w) : (machine Root).Wp (pure a) e w Q :=
  ⟨a, rfl, h⟩

theorem wp_ite {c : Prop} [Decidable c] {p q : Prog (sig Root) α}
    (hp : c → (machine Root).Wp p e w Q) (hq : ¬ c → (machine Root).Wp q e w Q) :
    (machine Root).Wp (if c then p else q) e w Q := by
  split
  · exact hp ‹_›
  · exact hq ‹_›

/-- A call at the end of a program. -/
theorem wp_sys_last {c : SysCall Root} {Q : Except Errno c.Val → Errno → FileSystem Root → Prop}
    {r : Except Errno c.Val} {w' : FileSystem Root} (h : answer w c = (r, w'))
    (hQ : Q r (errnoAfter e r) w') : (machine Root).Wp (sys c) e w Q :=
  Machine.wp_call_of_exec (by rw [machine_exec_none, h]) (wp_pure hQ)

end Wp

end Posix
