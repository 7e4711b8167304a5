import GitlstreeFS.Posix.Path
import Mathlib.Data.Finset.Card
import Mathlib.Data.Finset.Image
import Mathlib.Tactic.Common
import Mathlib.Data.Nat.Notation

/-!
# The state of a POSIX file system

A `FileSystem` is the state the system calls act on: a finite table of names and the
inodes behind them.

* A *name* is a path bound to an inode number. Several names may share an inode, and the
  link count `nlink` of an inode is the number of names bound to it, so the two cannot
  disagree.
* An *inode* is a regular file with its bytes, a directory, a symbolic link or a special
  file, with its attributes. An inode keeps its contents for as long as a descriptor is
  open on it, also after its last name is gone.
* A *descriptor* is the open file it stands for (`OpenFile`), a value that programs pass
  around. It keeps denoting its inode whatever happens to the inode's names. Neither the
  numbering of descriptors nor their position is modelled: the programs use no
  descriptor after closing it, and read from a descriptor at most once.

Inode numbers are handed out in increasing order and never reused; the field `names_lt`
says that the inodes in use have been handed out. It and `mem_dom` are part of the
structure, so every state satisfies them.

The functions of this file are the elementary changes the system calls are made of.
Each comes with one `simp` lemma for each field it could have changed.
-/

namespace Posix

abbrev Bytes := List UInt8

/-- The twelve low bits of `st_mode`. -/
abbrev Mode := BitVec 12

/-- The attributes of an inode. -/
structure Attr where
  mode : Mode
  uid : ℕ
  gid : ℕ
  atime : ℕ
  mtime : ℕ
  ctime : ℕ
  xattr : List (Name × Bytes)
  deriving DecidableEq, Repr

/-- What an inode is. A special file `special opens` is a FIFO, a socket or a device;
`opens` says whether opening it succeeds (a socket or a device without driver: never). -/
inductive Kind (Root : Type) where
  | reg (data : Bytes)
  | dir
  | symlink (target : Path Root)
  | special (opens : Bool)
  deriving DecidableEq, Repr

structure Inode (Root : Type) where
  kind : Kind Root
  attr : Attr
  deriving DecidableEq, Repr

/-- `st_size`. Only that of a regular file is of consequence here. -/
def Kind.size {Root : Type} : Kind Root → Nat
  | .reg d => d.length
  | _ => 0

inductive AccessMode where
  | rdonly
  | wronly
  | rdwr
  deriving DecidableEq, Repr

/-- An open file: the inode, and the access mode and `O_APPEND` of the `open`. -/
structure OpenFile where
  ino : ℕ
  access : AccessMode
  append : Bool
  deriving DecidableEq, Repr

/-- The user and group the process runs as. -/
structure Cred where
  uid : ℕ
  gid : ℕ
  deriving DecidableEq, Repr

/-- One of the three permission bits `r`, `w`, `x` (numbered 2, 1, 0 within a class):
root passes, everyone else is checked against the first class that matches. -/
def Cred.permits (c : Cred) (a : Attr) (bit : Nat) : Bool :=
  if c.uid = 0 then true
  else if a.uid = c.uid then a.mode.getLsbD (6 + bit)
  else if a.gid = c.gid then a.mode.getLsbD (3 + bit)
  else a.mode.getLsbD bit

/-- The state of the file system as one process sees it. -/
structure FileSystem (Root : Type) where
  names : Path Root → Option ℕ
  dom : Finset (Path Root)
  node : ℕ → Inode Root
  next : ℕ
  cred : Cred
  now : ℕ
  /-- `dom` is the domain of the name table. -/
  mem_dom : ∀ p, p ∈ dom ↔ (names p).isSome
  /-- Inodes with a name have been handed out. -/
  names_lt : ∀ p i, names p = some i → i < next

namespace FileSystem

variable {Root : Type} (w : FileSystem Root)

/-! ### Observations -/

/-- The names of the inode `i`. -/
def links (i : ℕ) : Finset (Path Root) :=
  w.dom.filter fun p => w.names p = some i

/-- The link count `st_nlink`. -/
def nlink (i : ℕ) : ℕ :=
  (w.links i).card

/-- The inode at a name. -/
def inode? (p : Path Root) : Option (Inode Root) :=
  (w.names p).map w.node

/-- The bytes of the regular file at a name. -/
def content (p : Path Root) : Option Bytes :=
  match w.inode? p with
  | some ⟨.reg d, _⟩ => some d
  | _ => none

/-- `p` is a directory. -/
def isDir (p : Path Root) : Bool :=
  match w.inode? p with
  | some ⟨.dir, _⟩ => true
  | _ => false

@[simp] theorem mem_links {p : Path Root} {i : ℕ} : p ∈ w.links i ↔ w.names p = some i := by
  simp only [links, Finset.mem_filter, w.mem_dom, and_iff_right_iff_imp]
  intro h
  simp [h]

/-- Two states with the same names have the same links. -/
theorem links_congr {w w' : FileSystem Root} {i i' : ℕ}
    (h : ∀ p, w.names p = some i ↔ w'.names p = some i') : w.links i = w'.links i' := by
  ext p
  simpa using h p

theorem nlink_congr {w w' : FileSystem Root} {i i' : ℕ}
    (h : ∀ p, w.names p = some i ↔ w'.names p = some i') : w.nlink i = w'.nlink i' :=
  congrArg Finset.card (links_congr h)

theorem nlink_pos {p : Path Root} {i : ℕ} (h : w.names p = some i) : 0 < w.nlink i :=
  Finset.card_pos.mpr ⟨p, w.mem_links.mpr h⟩

/-- An inode has link count one exactly if its only name is `p`. -/
theorem nlink_eq_one_iff {p : Path Root} {i : ℕ} (h : w.names p = some i) :
    w.nlink i = 1 ↔ ∀ q, w.names q = some i → q = p := by
  rw [nlink, Finset.card_eq_one]
  constructor
  · rintro ⟨r, hr⟩ q hq
    have hp : p ∈ w.links i := w.mem_links.mpr h
    have hq' : q ∈ w.links i := w.mem_links.mpr hq
    rw [hr, Finset.mem_singleton] at hp hq'
    rw [hp, hq']
  · intro h_only
    refine ⟨p, Finset.ext fun q => ?_⟩
    rw [mem_links, Finset.mem_singleton]
    exact ⟨h_only q, fun hq => hq ▸ h⟩

/-- An inode has link count two or more exactly if it has a name besides `p`. -/
theorem two_le_nlink_iff {p : Path Root} {i : ℕ} (h : w.names p = some i) :
    2 ≤ w.nlink i ↔ ∃ q, q ≠ p ∧ w.names q = some i := by
  have h_pos := w.nlink_pos h
  have h_one := not_congr (w.nlink_eq_one_iff h)
  push Not at h_one
  constructor
  · intro h_two
    obtain ⟨q, hq, h_ne⟩ := h_one.mp (by omega)
    exact ⟨q, h_ne, hq⟩
  · rintro ⟨q, h_ne, hq⟩
    have := h_one.mpr ⟨q, hq, h_ne⟩
    omega

/-- An inode with link count three or more has a name besides any two paths. -/
theorem exists_third_name {i : ℕ} (h : 3 ≤ w.nlink i) (p q : Path Root) :
    ∃ r, w.names r = some i ∧ r ≠ p ∧ r ≠ q := by
  classical
  have h_card : ({p, q} : Finset (Path Root)).card < (w.links i).card :=
    lt_of_le_of_lt Finset.card_le_two (by unfold nlink at h; omega)
  obtain ⟨r, hr, h_not⟩ := Finset.exists_mem_notMem_of_card_lt_card h_card
  simp only [Finset.mem_insert, Finset.mem_singleton, not_or] at h_not
  exact ⟨r, w.mem_links.mp hr, h_not.1, h_not.2⟩

/-- Three names make a link count of three. -/
theorem three_le_nlink {p q r : Path Root} {i : ℕ} (hp : w.names p = some i)
    (hq : w.names q = some i) (hr : w.names r = some i) (hpq : p ≠ q) (hpr : p ≠ r) (hqr : q ≠ r) :
    3 ≤ w.nlink i :=
  Finset.two_lt_card.mpr ⟨p, w.mem_links.mpr hp, q, w.mem_links.mpr hq, r, w.mem_links.mpr hr,
    hpq, hpr, hqr⟩

/-- A fresh inode number has no name. -/
theorem names_ne_next (p : Path Root) {i : ℕ} (hi : w.next ≤ i) : w.names p ≠ some i :=
  fun h => absurd (w.names_lt p i h) (by omega)

variable [DecidableEq Root]

/-- The names that lie strictly below `p`. -/
def entriesBelow (p : Path Root) : Finset (Path Root) :=
  w.dom.filter fun q => Path.Below p q ∧ q ≠ p

/-! ### Elementary changes -/

/-- Bind `p` to the inode `i`. -/
@[simps]
def setName (p : Path Root) (i : ℕ) : FileSystem Root where
  names := Function.update w.names p (some i)
  dom := insert p w.dom
  node := w.node
  next := max w.next (i + 1)
  cred := w.cred
  now := w.now
  mem_dom := by
    intro q
    by_cases h : q = p
    · simp [h]
    · simp [h, w.mem_dom]
  names_lt := by
    intro q j hj
    by_cases h : q = p
    · simp only [h, Function.update_self, Option.some.injEq] at hj
      omega
    · rw [Function.update_of_ne h] at hj
      have := w.names_lt q j hj
      omega

/-- Remove the name `p`. -/
@[simps]
def clearName (p : Path Root) : FileSystem Root where
  names := Function.update w.names p none
  dom := w.dom.erase p
  node := w.node
  next := w.next
  cred := w.cred
  now := w.now
  mem_dom := by
    intro q
    by_cases h : q = p
    · simp [h]
    · simp [h, w.mem_dom]
  names_lt := by
    intro q j hj
    by_cases h : q = p
    · simp [h] at hj
    · rw [Function.update_of_ne h] at hj
      exact w.names_lt q j hj

/-- Move the names about: what was at `σ p` is afterwards at `p`. -/
@[simps]
def permute (σ : Equiv.Perm (Path Root)) : FileSystem Root where
  names := fun p => w.names (σ p)
  dom := w.dom.map σ.symm.toEmbedding
  node := w.node
  next := w.next
  cred := w.cred
  now := w.now
  mem_dom := by
    intro q
    simp only [← w.mem_dom, Finset.mem_map, Equiv.coe_toEmbedding]
    refine ⟨?_, fun h => ⟨σ q, h, by simp⟩⟩
    rintro ⟨p, hp, rfl⟩
    simpa using hp
  names_lt := fun p i h => w.names_lt (σ p) i h

/-- Write the inode `i`. -/
@[simps]
def setNode (i : ℕ) (n : Inode Root) : FileSystem Root where
  names := w.names
  dom := w.dom
  node := Function.update w.node i n
  next := w.next
  cred := w.cred
  now := w.now
  mem_dom := w.mem_dom
  names_lt := w.names_lt

/-- Hand out the inode number `w.next` for a new inode `n`. -/
@[simps]
def alloc (n : Inode Root) : FileSystem Root where
  names := w.names
  dom := w.dom
  node := Function.update w.node w.next n
  next := w.next + 1
  cred := w.cred
  now := w.now
  mem_dom := w.mem_dom
  names_lt := fun p i h => Nat.lt_succ_of_lt (w.names_lt p i h)

/-- Move the name `a` to `b`, which it replaces. -/
def moveName (a b : Path Root) : FileSystem Root :=
  (w.clearName b).permute (Equiv.swap a b)

theorem moveName_names {a b : Path Root} (h : a ≠ b) :
    (w.moveName a b).names = Function.update (Function.update w.names b (w.names a)) a none := by
  funext q
  by_cases ha : q = a
  · subst ha
    simp [moveName]
  · by_cases hb : q = b
    · subst hb
      simp [moveName, ha, h]
    · simp [moveName, Equiv.swap_apply_of_ne_of_ne ha hb, ha, hb]

/-- A name that was made for a file and then moved to `b` has put the file at `b`. -/
theorem moveName_names_of_update {w w' : FileSystem Root} {a b : Path Root} {i : ℕ}
    (h : w'.names = Function.update w.names a (some i)) (ha : w.names a = none) (hab : a ≠ b) :
    (w'.moveName a b).names = Function.update w.names b (some i) := by
  rw [moveName_names w' hab, h, Function.update_self]
  funext q
  by_cases hqa : q = a
  · subst hqa
    rw [Function.update_self, Function.update_of_ne hab, ha]
  · by_cases hqb : q = b
    · subst hqb
      rw [Function.update_of_ne hqa, Function.update_self, Function.update_self]
    · rw [Function.update_of_ne hqa, Function.update_of_ne hqb, Function.update_of_ne hqa,
        Function.update_of_ne hqb]

@[simp] theorem moveName_node (a b : Path Root) : (w.moveName a b).node = w.node := rfl

@[simp] theorem moveName_next (a b : Path Root) : (w.moveName a b).next = w.next := rfl

@[simp] theorem moveName_cred (a b : Path Root) : (w.moveName a b).cred = w.cred := rfl

@[simp] theorem moveName_now (a b : Path Root) : (w.moveName a b).now = w.now := rfl

end FileSystem

end Posix
