import GitlstreeFS.FileUtil
import GitlstreeFS.Posix.Rules
import GitlstreeFS.Cowfs.Names
import Mathlib.Tactic.IntervalCases

/-!
# The file utilities on a quiet directory

What the helpers of `FileUtil` do when nothing else runs and no name they make up is
taken: `readFromFile` yields the content, a scope keeps what its body does, and
`fileCopyInternal` makes a new file of the same content.
-/

namespace GitlstreeFS

open Effect Posix FileSystem

variable {Root α : Type} [DecidableEq Root] {w : FileSystem Root} {p : Path Root} {i : ℕ}
  {d : Bytes} {e : Errno}

/-! ### `readFromFile` -/

/-- A regular file is read whole, unless it is longer than one `read` transfers. -/
theorem wp_readFromFile {Q : Option Bytes → Errno → FileSystem Root → Prop}
    (h : w.names p = some i) (hk : (w.node i).kind = .reg d)
    (hr : w.cred.permits (w.node i).attr 2)
    (hQ : Q (if d.length ≤ maxRwCount then some d else none) e w) :
    (machine Root).Wp (readFromFile p) e w Q := by
  have h_size : (w.stat i).size = d.length := by simp [stat, hk, Kind.size]
  unfold readFromFile
  refine wp_sys (answer_openat_rdonly h hk hr 0) ?_
  refine wp_seq ?_
  unfold readOpened
  refine wp_sys (answer_fstat _) ?_
  refine wp_sys (answer_read hk (by simp) _) ?_
  refine wp_pure (wp_sys (answer_close _) (wp_pure ?_))
  rw [h_size]
  by_cases hd : d.length ≤ maxRwCount
  · simpa [hd] using hQ
  · have h_ne : d.length ≠ maxRwCount := fun h => hd (by omega)
    simpa [hd, h_ne, Nat.min_eq_right (Nat.le_of_not_le hd)] using hQ

/-! ### Scopes -/

/-- A scope that calls `clear` on its temporary file does what its body does. -/
theorem wp_scopedTempFile {opt : Name} {tid : ℕ} {scope : Path Root → Proc Root (α × Bool)}
    {Q : α → Errno → FileSystem Root → Prop} (h : w.names (tmpName p opt tid) = none)
    (hd : w.isDir p.parent)
    (hs : (machine Root).Wp (scope (tmpName p opt tid)) .ENOENT w
      fun r e' w' => r.2 = false ∧ Q r.1 e' w') :
    (machine Root).Wp (scopedTempFile p opt tid scope) e w Q := by
  have h_missing : w.missing (tmpName p opt tid) = .ENOENT := missing_of_isDir (by simpa using hd)
  unfold scopedTempFile
  refine wp_seq ?_
  unfold scopedTempFileCtor
  refine wp_sys (answer_unlinkat_missing h) (wp_getErrno ?_)
  rw [h_missing, errnoAfter_error, if_neg (by simp)]
  refine wp_pure (wp_seq (hs.mono ?_))
  rintro ⟨a, owned⟩ e' w' ⟨h_owned, hQ⟩
  obtain rfl : owned = false := h_owned
  exact wp_pure hQ

/-- The state in which the scope of a lock starts. -/
def locked (w : FileSystem Root) (p : Path Root) : FileSystem Root :=
  (w.alloc (w.newInode .dir 0o700)).setName (lockName p) w.next

theorem keeps_locked (w : FileSystem Root) (p : Path Root) : Keeps w (locked w p) :=
  (keeps_alloc _).trans (keeps_setName _ _)

theorem locked_names (w : FileSystem Root) (p : Path Root) :
    (locked w p).names = Function.update w.names (lockName p) (some w.next) := rfl

theorem locked_names_of_ne {q : Path Root} (h : q ≠ lockName p) :
    (locked w p).names q = w.names q := by
  rw [locked_names, Function.update_of_ne h]

theorem locked_names_of_clean {q : Path Root} (h : Clean q) : (locked w p).names q = w.names q :=
  locked_names_of_ne (ne_of_clean (lockName_not_clean p) h)

theorem locked_isDir {q : Path Root} (h : Clean q) : (locked w p).isDir q = w.isDir q :=
  (keeps_locked w p).isDir (locked_names_of_clean h)

/-- Taking a lock and giving it back changes no clean name. -/
theorem unlock_names_of_clean {q : Path Root} (h : Clean q) :
    (w.clearName (lockName p)).names q = w.names q :=
  Function.update_of_ne (ne_of_clean (lockName_not_clean p) h) _ _

theorem unlock_locked_names {v : FileSystem Root} (h : w.names (lockName p) = none)
    (hv : v.names = (locked w p).names) : (v.clearName (lockName p)).names = w.names := by
  change Function.update v.names (lockName p) none = w.names
  rw [hv, locked_names, Function.update_idem, ← h, Function.update_eq_self]

/-- A scope under a lock does what its body does, provided the lock is free and the body
leaves it and what is below it alone. -/
theorem wp_scopedFileLockWithDelete {scope : Proc Root α}
    {Q : α → Errno → FileSystem Root → Prop} (h : w.names (lockName p) = none)
    (hd : w.isDir p.parent)
    (hs : (machine Root).Wp scope e (locked w p) fun a e' w' => Keeps (locked w p) w' ∧
      (∀ q, Path.Below (lockName p) q → w'.names q = (locked w p).names q) ∧
      Q a e' (w'.clearName (lockName p)))
    (h_below : ∀ q, Path.Below (lockName p) q → w.names q = none) :
    (machine Root).Wp (scopedFileLockWithDelete p scope) e w Q := by
  unfold scopedFileLockWithDelete
  refine wp_sysUntilOk (answer_mkdirat h (by simpa using hd) 0o700) ?_
  refine wp_seq (hs.mono ?_)
  rintro a e' w' ⟨h_keeps, h_under, hQ⟩
  have h_lock : w'.isDir (lockName p) := by
    rw [h_keeps.isDir (h_under _ (Path.Below.refl _)), isDir_iff, kind?_eq_some]
    exact ⟨w.next, by simp [locked_names], by simp [locked, newInode]⟩
  have h_empty : w'.entriesBelow (lockName p) = ∅ := by
    ext q
    simp only [entriesBelow, Finset.mem_filter, Finset.notMem_empty, iff_false, not_and, not_not]
    intro hq hq'
    by_contra h_ne
    rw [w'.mem_dom, h_under q hq', locked_names_of_ne h_ne, h_below q hq'] at hq
    simp at hq
  exact wp_sys (answer_rmdirat h_lock h_empty) (wp_pure hQ)

/-! ### `fileCopyInternal` -/

theorem permits_congr {c : Cred} {a a' : Attr} (hm : ∀ b < 9, a'.mode.getLsbD b = a.mode.getLsbD b)
    (hu : a'.uid = a.uid) (hg : a'.gid = a.gid) {bit : ℕ} (hb : bit < 3) :
    c.permits a' bit = c.permits a bit := by
  simp only [Cred.permits, hu, hg, hm (6 + bit) (by omega), hm (3 + bit) (by omega),
    hm bit (by omega)]

/-- A `chown` leaves the permission bits alone. -/
theorem chowned_getLsbD (m : Mode) {b : ℕ} (hb : b < 9) : m.chowned.getLsbD b = m.getLsbD b := by
  unfold Mode.chowned
  split
  all_goals
    rw [BitVec.getLsbD_and]
    interval_cases b <;> simp

@[simp] theorem utimes_mode (a : Attr) (now : ℕ) (atime mtime : Option ℕ) :
    (a.utimes now atime mtime).mode = a.mode := by
  unfold Attr.utimes
  split <;> rfl

/-- The attributes `fileCopyInternal` sets give the permissions of the original. -/
theorem permits_copied (c : Cred) (a a₀ : Attr) (now₁ now₂ now₃ : ℕ) (atime mtime : Option ℕ)
    {bit : ℕ} (hb : bit < 3) :
    c.permits (((a.chmod now₁ a₀.mode).utimes now₂ atime mtime).chown now₃ (some a₀.uid)
      (some a₀.gid)) bit = c.permits a₀ bit := by
  refine permits_congr (fun b h => ?_) ?_ ?_ hb
  · simp only [Attr.chown, utimes_mode, Attr.chmod]
    exact chowned_getLsbD a₀.mode h
  · rfl
  · rfl

/-- `w'` is `w` with one more file, the inode `n` at `target`. -/
structure Created (w : FileSystem Root) (target : Path Root) (n : Inode Root)
    (w' : FileSystem Root) : Prop where
  names : w'.names = Function.update w.names target (some w.next)
  keeps : Keeps w w'
  node : w'.node w.next = n

theorem created_alloc (w : FileSystem Root) (target : Path Root) (n : Inode Root) :
    Created w target n ((w.alloc n).setName target w.next) :=
  ⟨rfl, (keeps_alloc n).trans (keeps_setName _ _), by simp⟩

theorem Created.setNode {n : Inode Root} {w' : FileSystem Root} (h : Created w p n w')
    (n' : Inode Root) : Created w p n' (w'.setNode w.next n') :=
  ⟨h.names, h.keeps.setNode (le_refl _) n', by simp⟩

/-- Changing the attributes of the new file. -/
theorem Created.setAttr {k : Kind Root} {a : Attr} {w' : FileSystem Root}
    (h : Created w p ⟨k, a⟩ w') (f : Attr → Attr) :
    Created w p ⟨k, f a⟩ (w'.setAttr w.next f) := by
  rw [FileSystem.setAttr, h.node]
  exact h.setNode _

/-- Overwriting zeros with a content of the same length leaves that content. -/
theorem writeAt_resize_nil (d : Bytes) : writeAt (resize [] d.length) 0 d = d := by
  unfold writeAt resize
  split
  · next h => simp [h]
  · simp

/-- The copy is a new file of the same content and the same permissions. -/
theorem wp_fileCopyInternal {Q : Bool → Errno → FileSystem Root → Prop} {f : OpenFile}
    {target : Path Root} (hk : (w.node f.ino).kind = .reg d)
    (ha : f.access ≠ .wronly) (h_lt : f.ino < w.next) (hd : d.length ≤ maxRwCount)
    (ht : w.names target = none) (hp : w.isDir target.parent)
    (hQ : ∀ w' a, Created w target ⟨.reg d, a⟩ w' →
      (∀ (c : Cred) (bit : ℕ), bit < 3 →
        c.permits a bit = c.permits (w.node f.ino).attr bit) →
      Q true e w') :
    (machine Root).Wp (fileCopyInternal f (w.stat f.ino) target) e w Q := by
  have h_size : (w.stat f.ino).size = d.length := by simp [stat, hk, Kind.size]
  have h_from : ∀ {n w'}, Created w target n w' → (w'.node f.ino).kind = .reg d :=
    fun h => by rw [h.keeps.node _ h_lt, hk]
  unfold fileCopyInternal
  refine wp_sys (answer_openat_create ht hp rfl _) (wp_seq ?_)
  unfold fileCopyOpened
  have h₀ := created_alloc w target (w.newInode (.reg []) (w.stat f.ino).attr.mode)
  generalize (w.alloc _).setName target w.next = w₀ at h₀
  -- first space for the content, then the content
  obtain ⟨r, h_alloc⟩ := answer_posixFallocate (w := w₀)
    (f := ⟨w.next, copyFlags.access, copyFlags.append⟩) (d := []) (by rw [h₀.node]; rfl)
    AccessMode.noConfusion (w.stat f.ino).size
  refine wp_sys h_alloc ?_
  obtain ⟨a₁, h₁⟩ : ∃ a₁, Created w target ⟨.reg (resize [] d.length), a₁⟩
      (if (w.stat f.ino).size = 0 then w₀ else w₀.setNode w.next
        ⟨.reg (resize [] (max (w.stat f.ino).size 0)), (w₀.node w.next).attr⟩) := by
    rw [h_size]
    split
    · next h_nil => exact ⟨_, by rw [h_nil]; exact h₀⟩
    · exact ⟨_, by rw [Nat.max_eq_left (Nat.zero_le _)]; exact h₀.setNode _⟩
  generalize (if (w.stat f.ino).size = 0 then w₀ else _) = w₁ at h₁
  have h_take : d.take (min (w.stat f.ino).size maxRwCount) = d := by
    rw [h_size, Nat.min_eq_left hd, List.take_length]
  refine wp_sys (answer_sendfile (h_from h₁) (by rw [h₁.node]) ha AccessMode.noConfusion _) ?_
  have h₂ := h₁.setNode ⟨.reg d, (w₁.node w.next).attr.written w₁.now⟩
  rw [h_take, writeAt_resize_nil]
  generalize w₁.setNode w.next _ = w₂ at h₂
  dsimp only
  rw [if_neg (by rw [h_size]; simp)]
  -- then the attributes
  refine wp_sys (answer_fchmod _ _) ?_
  have h₃ := h₂.setAttr (·.chmod w₂.now (w.stat f.ino).attr.mode)
  generalize w₂.setAttr w.next _ = w₃ at h₃
  refine wp_sys (answer_futimens _ _ _) ?_
  have h₄ := h₃.setAttr (·.utimes w₃.now (some (w.stat f.ino).attr.mtime)
    (some (w.stat f.ino).attr.ctime))
  generalize w₃.setAttr w.next _ = w₄ at h₄
  refine wp_sys (answer_fchown _ _ _) ?_
  have h₅ := h₄.setAttr (·.chown w₄.now (some (w.stat f.ino).attr.uid)
    (some (w.stat f.ino).attr.gid))
  refine wp_pure (wp_sys (answer_close _) (wp_pure ?_))
  exact hQ _ _ h₅ fun c bit hb => permits_copied c _ _ _ _ _ _ _ hb

end GitlstreeFS
