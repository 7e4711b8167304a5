import GitlstreeFS.Posix.Rules

/-!
# Renaming

`renameat2` with all its flags and kinds of arguments in one description, `Rearranged`: names
at and below the two paths change places, the name that was overwritten is lost, and nothing
else happens (`renameat2_rearranged`).
-/

namespace Posix

variable {Root : Type} {a b : Path Root}

namespace Path

/-- `σ` takes paths at or below `a` to the corresponding ones at or below `b` and back, and
leaves all others where they are. -/
structure Moves (a b : Path Root) (σ : Equiv.Perm (Path Root)) : Prop where
  involutive : ∀ q, σ (σ q) = q
  cases : ∀ q, σ q = q ∨ (∃ t, q = a.extend t ∧ σ q = b.extend t) ∨
    ∃ t, q = b.extend t ∧ σ q = a.extend t

@[simp] theorem extend_nil (a : Path Root) : a.extend [] = a := rfl

@[simp] theorem extend_root (a : Path Root) (t : List Name) : (a.extend t).root = a.root := rfl

theorem Moves.root {σ : Equiv.Perm (Path Root)} (h : Moves a b σ) (h_root : a.root = b.root)
    (q : Path Root) : (σ q).root = q.root := by
  rcases h.cases q with h_same | ⟨t, h_q, h_σ⟩ | ⟨t, h_q, h_σ⟩
  · rw [h_same]
  · rw [h_σ, h_q, extend_root, extend_root, h_root]
  · rw [h_σ, h_q, extend_root, extend_root, h_root]

theorem Moves.of_not_below {σ : Equiv.Perm (Path Root)} (h : Moves a b σ) {q : Path Root}
    (ha : ¬ Below a q) (hb : ¬ Below b q) : σ q = q := by
  rcases h.cases q with h_same | ⟨t, h_q, -⟩ | ⟨t, h_q, -⟩
  · exact h_same
  · exact absurd (h_q ▸ below_extend a t) ha
  · exact absurd (h_q ▸ below_extend b t) hb

variable [DecidableEq Root]

theorem moves_swap (a b : Path Root) : Moves a b (Equiv.swap a b) := by
  refine ⟨Equiv.swap_apply_self a b, fun q => ?_⟩
  by_cases ha : q = a
  · exact Or.inr (Or.inl ⟨[], by simp [ha]⟩)
  by_cases hb : q = b
  · exact Or.inr (Or.inr ⟨[], by simp [hb]⟩)
  · exact Or.inl (Equiv.swap_apply_of_ne_of_ne ha hb)

theorem moves_swapTree (hab : ¬ Below a b) (hba : ¬ Below b a) :
    Moves a b (swapTree_involutive hab hba).toPerm := by
  refine ⟨swapTree_involutive hab hba, fun q => ?_⟩
  by_cases ha : Below a q
  · obtain ⟨t, rfl⟩ := ha.exists_extend
    exact Or.inr (Or.inl ⟨t, rfl, swapTree_left t⟩)
  by_cases hb : Below b q
  · obtain ⟨t, rfl⟩ := hb.exists_extend
    exact Or.inr (Or.inr ⟨t, rfl, swapTree_right hab hba t⟩)
  · exact Or.inl (swapTree_of_not_below ha hb)

end Path

namespace FileSystem

open Posix.Path

variable [DecidableEq Root] {w w' : FileSystem Root} {fl : RenameFlags}

/-- What an exchange does if it succeeds. -/
theorem exchange_cases (w : FileSystem Root) (a b : Path Root) :
    (∃ x, w.exchange a b = (.error x, w)) ∨
      ∃ σ, Moves a b σ ∧ (w.isDir a = false → w.isDir b = false → σ = Equiv.swap a b) ∧
        w.exchange a b = (.ok (), w.permute σ) := by
  unfold exchange
  by_cases h_dir : w.isDir a ∨ w.isDir b
  · rw [if_pos h_dir]
    by_cases h_below : ¬ Below a b ∧ ¬ Below b a
    · rw [dif_pos h_below]
      refine Or.inr ⟨_, moves_swapTree h_below.1 h_below.2, fun ha hb => ?_, rfl⟩
      simp [ha, hb] at h_dir
    · rw [dif_neg h_below]
      exact Or.inl ⟨_, rfl⟩
  · rw [if_neg h_dir]
    exact Or.inr ⟨_, moves_swap a b, fun _ _ => rfl, rfl⟩

/-- `w'` is `w` with the names at and below `a` and `b` rearranged. The name `b` may have been
lost, if there was a different file at `a`. -/
structure Rearranged (w : FileSystem Root) (a b : Path Root) (fl : RenameFlags)
    (w' : FileSystem Root) : Prop where
  keeps : Keeps w w'
  source : w.names a ≠ none
  /-- Every name comes from one of the old state. -/
  src : ∀ q i, w'.names q = some i → ∃ q', w.names q' = some i ∧
    (q' = q ∨ (∃ t, q' = a.extend t ∧ q = b.extend t) ∨ ∃ t, q' = b.extend t ∧ q = a.extend t)
  /-- Every name but an overwritten one is still there, in the same directory tree. -/
  dst : ∀ q i, w.names q = some i → (∃ q', w'.names q' = some i ∧ (a.root = b.root → q'.root = q.root)) ∨
    (q = b ∧ fl = .none ∧ w.names a ≠ w.names b)
  frame : ∀ q, ¬ Below a q → ¬ Below b q → w'.names q = w.names q
  /-- Where no directory is concerned, nothing below the paths moves. -/
  frame_file : w.isDir a = false → w.isDir b = false → ∀ q, q ≠ a → q ≠ b →
    w'.names q = w.names q

/-- Moving names about. -/
private theorem rearranged_permute {σ : Equiv.Perm (Path Root)} (h : Moves a b σ)
    (ha : w.names a ≠ none)
    (h_file : w.isDir a = false → w.isDir b = false → σ = Equiv.swap a b) :
    Rearranged w a b fl (w.permute σ) where
  keeps := ⟨fun _ _ => rfl, le_refl _, rfl, rfl⟩
  source := ha
  src q i hq := by
    refine ⟨σ q, hq, ?_⟩
    rcases h.cases q with h_same | ⟨t, h_q, h_σ⟩ | ⟨t, h_q, h_σ⟩
    · exact Or.inl h_same
    · exact Or.inr (Or.inr ⟨t, h_σ, h_q⟩)
    · exact Or.inr (Or.inl ⟨t, h_σ, h_q⟩)
  dst q i hq := Or.inl ⟨σ q, by rw [permute_names, h.involutive, hq], fun h_root => h.root h_root q⟩
  frame q hqa hqb := by rw [permute_names, h.of_not_below hqa hqb]
  frame_file hda hdb q hqa hqb := by
    rw [permute_names, h_file hda hdb, Equiv.swap_apply_of_ne_of_ne hqa hqb]

/-- Moving names about after the name `b` was removed. -/
private theorem rearranged_clear (hab : w.names a ≠ w.names b) (ha : w.names a ≠ none)
    (h : Rearranged (w.clearName b) a b .none w') : Rearranged w a b .none w' where
  keeps := (keeps_clearName b).trans h.keeps
  source := ha
  src q i hq := by
    obtain ⟨q', hq', h_move⟩ := h.src q i hq
    refine ⟨q', ?_, h_move⟩
    by_cases hb : q' = b
    · simp [hb] at hq'
    · rwa [clearName_names, Function.update_of_ne hb] at hq'
  dst q i hq := by
    by_cases hb : q = b
    · exact Or.inr ⟨hb, rfl, hab⟩
    · rcases h.dst q i (by rw [clearName_names, Function.update_of_ne hb, hq]) with h' | h'
      · exact Or.inl h'
      · exact absurd h'.1 hb
  frame q hqa hqb := by
    have hb : q ≠ b := fun h => hqb (h ▸ Below.refl b)
    rw [h.frame q hqa hqb, clearName_names, Function.update_of_ne hb]
  frame_file hda hdb q hqa hqb := by
    have h_dir : (w.clearName b).isDir a = false := by
      rw [← hda]
      refine (keeps_clearName b).isDir (Function.update_of_ne ?_ _ _)
      exact fun h => hab (h ▸ rfl)
    rw [h.frame_file h_dir (by simp [isDir, inode?]) q hqa hqb, clearName_names,
      Function.update_of_ne hqb]

/-- A rename that exchanges two paths or fails. -/
private theorem exchange_rearranged (ha : w.names a ≠ none) :
    (w.exchange a b).2 = w ∨ Rearranged w a b fl (w.exchange a b).2 := by
  rcases exchange_cases w a b with ⟨x, h⟩ | ⟨σ, h_moves, h_file, h⟩
  · exact Or.inl (by rw [h])
  · refine Or.inr ?_
    rw [h]
    exact rearranged_permute h_moves ha h_file

/-- **`renameat2`** changes nothing or rearranges the names. -/
theorem renameat2_rearranged (w : FileSystem Root) (a b : Path Root) (fl : RenameFlags) :
    (w.renameat2 a b fl).2 = w ∨ Rearranged w a b fl (w.renameat2 a b fl).2 := by
  unfold renameat2
  split
  · exact Or.inl rfl
  next h_isNone =>
  have ha : w.names a ≠ none := by simpa using h_isNone
  split
  · exact Or.inl rfl
  cases fl with
  | exchange =>
    dsimp only
    split
    · exact Or.inl rfl
    · exact exchange_rearranged ha
  | noreplace =>
    dsimp only
    split
    · exact Or.inl rfl
    · exact exchange_rearranged ha
  | none =>
    dsimp only
    split
    · exact Or.inl rfl
    next hab =>
    split
    · exact Or.inl rfl
    have ha' : (w.clearName b).names a ≠ none := by
      rwa [clearName_names, Function.update_of_ne (fun h : a = b => hab (by rw [h]))]
    rcases exchange_cases (w.clearName b) a b with ⟨x, h⟩ | ⟨σ, h_moves, h_file, h⟩
    · exact Or.inl (by rw [h])
    · refine Or.inr ?_
      rw [h]
      exact rearranged_clear hab ha (rearranged_permute h_moves ha' h_file)

end FileSystem

end Posix
