import GitlstreeFS.FileUtil

/-!
# Repository paths

`cowfs_crypt.cc` turns a content into the relative path of its repository file: the hash
in hexadecimal, two digits for the directory and the rest for the file. The hash itself
is libgcrypt's and stands here as a parameter `sha1`, a function from contents to digests
whose length is left open: no function into digests of twenty bytes is free of
collisions, so the assumption of collision-freeness could not be met with that length.

`repoPath_injective` carries the assumption over to the paths.
-/

namespace GitlstreeFS.Cowfs

open Posix

/-- The two directory trees of a mount: the underlying directory of the working files
and the repository. -/
inductive Tree where
  | workdir
  | repository
  deriving DecidableEq, Repr

/-- The digits of `hex_string_representation`. -/
def hexChar (n : ℕ) : Char :=
  "0123456789abcdef".toList.getD n '0'

/-- `hex_string_representation`. -/
def hexStringRepresentation (buf : Bytes) : Name :=
  buf.flatMap fun b => [hexChar (b.toNat / 16), hexChar (b.toNat % 16)]

variable (sha1 : Bytes → Bytes)

/-- `gcrypt_string`. -/
def gcryptString (buf : Bytes) : Name :=
  hexStringRepresentation (sha1 buf)

/-- `gcrypt_string_get_git_style_relpath`: the names of the directory and of the file. -/
def gcryptStringGetGitStyleRelpath (buf : Bytes) : Name × Name :=
  ((gcryptString sha1 buf).take 2, (gcryptString sha1 buf).drop 2)

/-- `repo + "/" + repo_dir_name`. -/
def repoDir (buf : Bytes) : Path Tree :=
  ⟨.repository, [(gcryptStringGetGitStyleRelpath sha1 buf).1]⟩

/-- `repo + "/" + repo_dir_name + "/" + repo_file_name`. -/
def repoPath (buf : Bytes) : Path Tree :=
  (repoDir sha1 buf).child (gcryptStringGetGitStyleRelpath sha1 buf).2

@[simp] theorem repoPath_root (buf : Bytes) : (repoPath sha1 buf).root = .repository := rfl

@[simp] theorem repoPath_parent (buf : Bytes) :
    (repoPath sha1 buf).parent = repoDir sha1 buf := rfl

/-! ### Injectivity -/

theorem hexChar_injOn {m n : ℕ} (hm : m < 16) (hn : n < 16) (h : hexChar m = hexChar n) :
    m = n := by
  have h_fin : ∀ a b : Fin 16, hexChar a = hexChar b → a = b := by decide
  exact Fin.mk.inj_iff.mp (h_fin ⟨m, hm⟩ ⟨n, hn⟩ h)

theorem hexStringRepresentation_injective : Function.Injective hexStringRepresentation := by
  intro a
  induction a with
  | nil =>
    intro b h
    cases b with
    | nil => rfl
    | cons y b => simp [hexStringRepresentation] at h
  | cons x a ih =>
    intro b h
    cases b with
    | nil => simp [hexStringRepresentation] at h
    | cons y b =>
      simp only [hexStringRepresentation, List.flatMap_cons, List.cons_append, List.nil_append,
        List.cons.injEq] at h
      obtain ⟨h_hi, h_lo, h_rest⟩ := h
      have hx := x.toNat_lt
      have hy := y.toNat_lt
      have h_div := hexChar_injOn (by omega) (by omega) h_hi
      have h_mod := hexChar_injOn (by omega) (by omega) h_lo
      have h_xy : x = y := UInt8.toNat_inj.mp (by omega)
      rw [h_xy, ih h_rest]

variable {sha1}

theorem gcryptString_injective (h : Function.Injective sha1) :
    Function.Injective (gcryptString sha1) :=
  hexStringRepresentation_injective.comp h

/-- Different contents have different repository files. -/
theorem repoPath_injective (h : Function.Injective sha1) :
    Function.Injective (repoPath sha1) := by
  intro a b hab
  simp only [repoPath, repoDir, Path.child, gcryptStringGetGitStyleRelpath, Posix.Path.mk.injEq,
    List.cons.injEq, and_true, true_and] at hab
  apply gcryptString_injective h
  rw [← List.take_append_drop 2 (gcryptString sha1 a), hab.1, hab.2, List.take_append_drop]

end GitlstreeFS.Cowfs
