import GitlstreeFS.Cpio.Hardlink
import GitlstreeFS.Ext2.Symlink
import GitlstreeFS.Githubfs.Handles
import GitlstreeFS.Gitlstree.Handles

/-!
# `Readlink` and the end of the string

A caller of `Readlink` gets a string in a buffer, which has to end with a zero. Four file systems put the zero
behind the content if there is room for it, and fill the buffer without one if there is not. So a link
that is as long as the buffer or longer leaves no string there (`LinkFile.readlink_terminates_iff`). The links
of ext2 go wrong in two ways more.
-/

namespace GitlstreeFS

open Buffer

/-- A symbolic link, as it is when `Readlink` is called. -/
inductive LinkFile where
  /-- `gitlstree::FileElement`, where `got` is what the cache returns if it is asked. -/
  | gitlstree (shows : ℕ → Option Str) (got memory : Option ℕ)
  /-- `githubfs::FileElement` -/
  | githubfs (shows : ℕ → Option Str) (got memory : Option ℕ)
  /-- `CpioFile`, in the archive `m` -/
  | cpio (m : Str) (f : Cpio.CpioFile)
  /-- `Ext2File` -/
  | ext2 (reader : Ext2.Ext2Reader) (inode : ℤ)

namespace LinkFile

/-- `Readlink`: what is written to `target`. `none` is a call that does not return. -/
def readlink (size : ℕ) : LinkFile → Option Str
  | .gitlstree shows got memory =>
    (Gitlstree.readlink shows size got memory).toOption.map fun r => r.1.target
  | .githubfs shows got memory => (Githubfs.readlink shows size got memory).map fun r => r.1.2
  | .cpio m f => (f.readlink m size).toOption.map Prod.snd
  | .ext2 reader inode => (Ext2.readlink reader inode size).toOption.map Prod.snd

/-- The content of the link is `c`. -/
def Has (c : Str) : LinkFile → Prop
  | .gitlstree shows got memory => ∃ p, (memory <|> got) = some p ∧ shows p = some c
  | .githubfs shows got memory => ∃ p, (memory <|> got) = some p ∧ shows p = some c
  | .cpio m f => Cpio.contents m f.c = .ok c
  | .ext2 reader inode => 1024 ≤ reader.blockSize ∧ Ext2.StoresLink reader inode c

/-- `Readlink` returns, has written nothing outside of the buffer, and left a terminated string in it. -/
def Terminates (c : Str) (size : ℕ) (f : LinkFile) : Prop :=
  ∃ written, f.readlink size = some written ∧ WritesTerminated written size c

/-- There is room for the zero. Of ext2, the content is not too long for `GetFileContent`; and with 60 bytes it
is the bytes of `block` that count: they are the content if there is room, and otherwise one of them is the
zero, behind bytes of the content. -/
def HasRoom (c : Str) (size : ℕ) : LinkFile → Prop
  | .ext2 reader inode => Ext2.actualBlocks reader c.length < Ext2.blockLimit reader
      ∧ if c.length = 60 then
          if 60 < size then Ext2.blockArea reader inode = c
          else ∃ k < size, (Ext2.blockArea reader inode)[k]? = some 0
            ∧ (Ext2.blockArea reader inode).take k = c.take k
        else c.length < size
  | _ => c.length < size

variable {c : Str} {size : ℕ}

/-! ### What is written -/

theorem readlink_gitlstree {shows : ℕ → Option Str} {got memory : Option ℕ}
    (h : (gitlstree shows got memory).Has c) :
    (gitlstree shows got memory).readlink size = some (putString c size) := by
  obtain ⟨p, h_p, h_shows⟩ := h
  rw [readlink, Gitlstree.readlink, Gitlstree.maybeCatFileLocked_eq_ok h_p, ok_bind]
  dsimp only
  rw [if_neg (not_not.mpr rfl), Gitlstree.contentOf, h_shows, ok_bind, putString]
  split <;> rfl

theorem readlink_githubfs {shows : ℕ → Option Str} {got memory : Option ℕ}
    (h : (githubfs shows got memory).Has c) :
    (githubfs shows got memory).readlink size = some (putString c size) := by
  obtain ⟨p, h_p, h_shows⟩ := h
  rw [readlink, Githubfs.readlink, Githubfs.maybeCatFileLocked_eq h_p]
  dsimp only
  rw [if_neg (not_not.mpr rfl), Option.bind_eq_bind, Option.bind_some, h_shows]
  rfl

theorem readlink_cpio {m : Str} {f : Cpio.CpioFile} (h : (cpio m f).Has c) :
    (cpio m f).readlink size = some (putString c size) := by
  obtain ⟨a, h_view, h_bytes, -, -⟩ := Cpio.of_contents h
  have h_copy (n : ℕ) : Cpio.copy m (a, c.length) n 0 = .ok (c.take n) := by
    rw [Cpio.copy, Cpio.bytes_part h_bytes (Nat.zero_le _), List.drop_zero]
  rw [readlink, Cpio.CpioFile.readlink, h_view, Cpio.lift, ok_bind, putString]
  dsimp only
  split
  · rw [h_copy, Cpio.lift, ok_bind, List.take_length]
    rfl
  · rw [h_copy, Cpio.lift, ok_bind]
    rfl

/-! ### What is left in the buffer -/

/-- What counts is what has been written. -/
theorem terminates_iff_writes {f : LinkFile} {written : Str} (h : f.readlink size = some written) :
    f.Terminates c size ↔ WritesTerminated written size c := by
  rw [Terminates, h]
  refine ⟨?_, fun h_writes => ⟨_, rfl, h_writes⟩⟩
  rintro ⟨_, h_eq, h_writes⟩
  exact Option.some.inj h_eq ▸ h_writes

/-- Three of the file systems have one condition. -/
theorem terminates_iff_of_eq {f : LinkFile} (h : f.readlink size = some (putString c size)) (h_zero : 0 ∉ c) :
    f.Terminates c size ↔ c.length < size := by
  rw [terminates_iff_writes h, writesTerminated_iff h_zero]

theorem terminates_ext2_iff {reader : Ext2.Ext2Reader} {inode : ℤ} (h : (ext2 reader inode).Has c)
    (h_zero : 0 ∉ c) : (ext2 reader inode).Terminates c size ↔ (ext2 reader inode).HasRoom c size := by
  obtain ⟨h_bs, h_stores⟩ := h
  rw [HasRoom]
  by_cases h_limit : Ext2.actualBlocks reader c.length < Ext2.blockLimit reader
  · have h_readlink : (ext2 reader inode).readlink size
        = some (putString (Ext2.shownTarget reader inode c) size) := by
      rw [readlink, Ext2.readlink_eq h_bs h_stores h_limit]
      rfl
    rw [and_iff_right h_limit]
    by_cases h_sixty : c.length = 60
    · have h_length : (Ext2.blockArea reader inode).length = c.length := by
        rw [Ext2.length_blockArea h_stores.inode_mem, h_sixty]
      rw [Ext2.shownTarget, if_pos h_sixty] at h_readlink
      rw [if_pos h_sixty, terminates_iff_writes h_readlink]
      split
      · next h_size => exact writesTerminated_of_lt h_length (by omega)
      · next h_size => exact writesTerminated_of_le h_length (by omega)
    · rw [Ext2.shownTarget, if_neg h_sixty] at h_readlink
      rw [if_neg h_sixty]
      exact terminates_iff_of_eq h_readlink h_zero
  · refine iff_of_false ?_ fun h_room => h_limit h_room.1
    rintro ⟨written, h_readlink, -⟩
    cases h_run : Ext2.readlink reader inode size with
    | error e =>
      rw [readlink, h_run] at h_readlink
      cases h_readlink
    | ok r => exact Ext2.readlink_ne_ok h_stores h_limit size r h_run

/-- **`Readlink` leaves a terminated string** just if there is room for its zero. -/
theorem readlink_terminates_iff (f : LinkFile) (c : Str) (size : ℕ) (h : f.Has c) (h_zero : 0 ∉ c) :
    f.Terminates c size ↔ f.HasRoom c size := by
  cases f with
  | gitlstree shows got memory => exact terminates_iff_of_eq (readlink_gitlstree h) h_zero
  | githubfs shows got memory => exact terminates_iff_of_eq (readlink_githubfs h) h_zero
  | cpio m f => exact terminates_iff_of_eq (readlink_cpio h) h_zero
  | ext2 reader inode => exact terminates_ext2_iff h h_zero

/-- A link of two bytes, whose content has been fetched before. -/
def shortLink : LinkFile :=
  .gitlstree (fun _ => some [104, 105]) none (some 0)

theorem has_shortLink : shortLink.Has [104, 105] :=
  ⟨0, rfl, rfl⟩

theorem terminates_shortLink : shortLink.Terminates [104, 105] 3 :=
  (readlink_terminates_iff shortLink [104, 105] 3 has_shortLink (by decide)).mpr (by decide : 2 < 3)

/-- A buffer of two bytes has no room for its zero. -/
theorem not_terminates_shortLink :
    shortLink.Has [104, 105] ∧ 0 ∉ ([104, 105] : Str) ∧ shortLink.readlink 2 = some [104, 105]
      ∧ ¬ shortLink.Terminates [104, 105] 2 := by
  have h_zero : 0 ∉ ([104, 105] : Str) := by decide
  refine ⟨has_shortLink, h_zero, rfl, fun h => ?_⟩
  exact absurd ((terminates_iff_of_eq (readlink_gitlstree has_shortLink) h_zero).mp h) (by decide)

end LinkFile

end GitlstreeFS
