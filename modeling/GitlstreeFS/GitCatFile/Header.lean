import GitlstreeFS.GitCatFile.Model

/-!
# The header of an answer

What `GitCatFileMetadata` accepts: a first line of two fields, or of two fields and a number
(`Heads`), and nothing else (`metadata_eq_ok_iff`).
-/

namespace GitlstreeFS.GitCatFile

variable {c : UInt8} {s u : Str}

/-! ### First lines -/

/-- A field of the first line. -/
def IsField (s : Str) : Prop :=
  space ∉ s ∧ newline ∉ s

theorem newline_ne_space : newline ≠ space := by
  decide

/-- What `header` begins with is a first line, and `m` is what it says. -/
inductive Heads (header : Str) : Metadata → Prop
  /-- An object that could not be found. -/
  | unsized (sha1 type t : Str) (h_sha1 : IsField sha1) (h_type : IsField type)
      (h : header = sha1 ++ space :: (type ++ newline :: t)) :
      Heads header ⟨toInt ((sha1.length + 1 + type.length : ℕ) + 1), -1, sha1, type⟩
  | sized (sha1 type size t : Str) (h_sha1 : IsField sha1) (h_type : IsField type)
      (h_size : newline ∉ size) (h_fits : Fits (strtol (size ++ newline :: t) 10))
      (h : header = sha1 ++ space :: (type ++ space :: (size ++ newline :: t))) :
      Heads header ⟨toInt ((sha1.length + 1 + type.length + 1 + size.length : ℕ) + 1),
        strtol (size ++ newline :: t) 10, sha1, type⟩

variable {header sha1 type size t : Str} {m : Metadata}

theorem Heads.ne_nil {header : Str} (h : Heads header m) : header ≠ [] := by
  cases h with
  | unsized _ _ _ _ _ h => simp [h]
  | sized _ _ _ _ _ _ _ _ h => simp [h]

/-- The fields of a first line. -/
theorem take_sha1 (sha1 v : Str) : (sha1 ++ v).take sha1.length = sha1 :=
  List.take_left' rfl

theorem substr_type (sha1 type v : Str) (n : ℤ) (h : n = (sha1.length + 1 + type.length : ℕ)) :
    substr (sha1 ++ space :: (type ++ v)) (sha1.length + 1) (n - (sha1.length + 1)) = type := by
  have h_drop : (sha1 ++ space :: (type ++ v)).drop (sha1.length + 1) = type ++ v := by
    rw [List.append_cons]
    exact List.drop_left' (by simp)
  rw [substr, if_pos (by omega), h_drop]
  exact List.take_left' (by omega)

theorem metadata_of_newline_notMem (h : newline ∉ header) :
    metadata header = .error .aborted := by
  rw [metadata, find_eq_none h]
  rfl

theorem metadata_of_space_notMem (h_newline : newline ∉ sha1) (h_space : space ∉ sha1) (t : Str) :
    metadata (sha1 ++ newline :: t) = .error .aborted := by
  have h_skip : space ∉ sha1 ++ [newline] := by
    simp [h_space, Ne.symm newline_ne_space]
  rw [metadata, find_append h_newline, List.append_cons, find_skip h_skip]
  cases find t space 0 with
  | none => rfl
  | some n =>
    -- a space behind the first line is no better than none
    change (assert (n + (sha1 ++ [newline]).length < sha1.length) >>= fun _ => _) = _
    rw [assert, if_neg (by rw [List.length_append]; omega)]
    rfl

theorem metadata_unsized (h_sha1 : IsField sha1) (h_type : IsField type) (t : Str) :
    metadata (sha1 ++ space :: (type ++ newline :: t))
      = .ok ⟨toInt ((sha1.length + 1 + type.length : ℕ) + 1), -1, sha1, type⟩ := by
  set header := sha1 ++ space :: (type ++ newline :: t) with h_header
  have h_line : header = (sha1 ++ space :: type) ++ newline :: t := by
    simp [h_header]
  have h_newline : newline ∉ sha1 ++ space :: type := by
    simp [h_sha1.2, h_type.2, newline_ne_space]
  have h_first : find header newline 0 = some (sha1.length + 1 + type.length) := by
    rw [h_line, find_append h_newline, List.length_append, List.length_cons]
    congr 1
    omega
  have h_space₁ : find header space 0 = some sha1.length := find_append h_sha1.1 _
  have h_skip : space ∉ type ++ [newline] := by
    simp [h_type.1, Ne.symm newline_ne_space]
  have h_space₂ : find header space (sha1.length + 1)
      = (find t space 0).map (· + (type.length + 1) + (sha1.length + 1)) := by
    have h_behind := find_behind (sha1 ++ [space]) ((type ++ [newline]) ++ t) space
    rw [find_skip h_skip, Option.map_map, List.length_append, List.length_append,
      List.length_singleton, List.append_assoc, List.append_assoc, List.singleton_append,
      List.singleton_append] at h_behind
    exact h_behind
  rw [metadata, h_first, h_space₁]
  change (assert (sha1.length < sha1.length + 1 + type.length) >>= fun _ => _) = _
  rw [assert, if_pos (by omega), ok_bind, h_space₂, h_header, take_sha1,
    substr_type sha1 type (newline :: t) _ rfl]
  cases find t space 0 with
  | none => rfl
  | some n =>
    change (if sha1.length + 1 + type.length < n + (type.length + 1) + (sha1.length + 1)
      then _ else _) = _
    rw [if_pos (by omega)]
    rfl

theorem metadata_sized (h_sha1 : IsField sha1) (h_type : IsField type) (h_size : newline ∉ size)
    (t : Str) :
    metadata (sha1 ++ space :: (type ++ space :: (size ++ newline :: t)))
      = (atoi (size ++ newline :: t)).map fun n =>
          ⟨toInt ((sha1.length + 1 + type.length + 1 + size.length : ℕ) + 1), n, sha1, type⟩ := by
  set header := sha1 ++ space :: (type ++ space :: (size ++ newline :: t)) with h_header
  have h_line : header = (sha1 ++ space :: (type ++ space :: size)) ++ newline :: t := by
    simp [h_header]
  have h_newline : newline ∉ sha1 ++ space :: (type ++ space :: size) := by
    simp [h_sha1.2, h_type.2, h_size, newline_ne_space]
  -- where the three searches of the function end
  have h_first : find header newline 0
      = some (sha1.length + 1 + type.length + 1 + size.length) := by
    rw [h_line, find_append h_newline]
    simp only [List.length_append, List.length_cons]
    congr 1
    omega
  have h_space₁ : find header space 0 = some sha1.length := find_append h_sha1.1 _
  have h_space₂ : find header space (sha1.length + 1) = some (sha1.length + 1 + type.length) := by
    have h_behind := find_behind (sha1 ++ [space]) (type ++ space :: (size ++ newline :: t)) space
    rw [find_append h_type.1, List.length_append, List.length_singleton, List.append_assoc,
      List.singleton_append] at h_behind
    rw [h_header, h_behind, Option.map_some, Nat.add_comm]
  have h_drop : header.drop (sha1.length + 1 + type.length + 1) = size ++ newline :: t := by
    have h_fields : header = (sha1 ++ space :: (type ++ [space])) ++ (size ++ newline :: t) := by
      simp [h_header]
    rw [h_fields]
    exact List.drop_left' (by simp; omega)
  rw [metadata, h_first, h_space₁]
  change (assert (sha1.length < sha1.length + 1 + type.length + 1 + size.length) >>= fun _ => _) = _
  rw [assert, if_pos (by omega), ok_bind, h_space₂]
  change (if sha1.length + 1 + type.length + 1 + size.length < sha1.length + 1 + type.length
    then _ else sizedMetadata _ _ _ _) = _
  rw [if_neg (by omega), sizedMetadata, assert, if_pos (by omega), h_drop]
  cases atoi (size ++ newline :: t) with
  | error o => rfl
  | ok n =>
    change Except.ok (Metadata.mk _ _ (header.take sha1.length) (substr header _ (_ - _))) = _
    rw [take_sha1, substr_type sha1 type _ _ rfl]
    rfl

/-- A header begins with a first line, or the process does not get past it. -/
theorem metadata_cases (header : Str) :
    (∃ m, metadata header = .ok m ∧ Heads header m) ∨ metadata header = .error .aborted ∨
      metadata header = .error .undefined := by
  by_cases h_mem : newline ∈ header
  · obtain ⟨line, t, rfl, h_line⟩ := List.eq_append_cons_of_mem h_mem
    by_cases h_space : space ∈ line
    · obtain ⟨sha1, fields, rfl, h_sha1⟩ := List.eq_append_cons_of_mem h_space
      rw [List.mem_append, List.mem_cons, not_or, not_or] at h_line
      by_cases h_space₂ : space ∈ fields
      · obtain ⟨type, size, rfl, h_type⟩ := List.eq_append_cons_of_mem h_space₂
        have h_fields : newline ∉ type ∧ newline ∉ size := by
          simpa [newline_ne_space] using h_line.2.2
        simp only [List.append_assoc, List.cons_append]
        rw [metadata_sized ⟨h_sha1, h_line.1⟩ ⟨h_type, h_fields.1⟩ h_fields.2, atoi]
        by_cases h_fits : Fits (strtol (size ++ newline :: t) 10)
        · rw [if_pos h_fits]
          exact .inl ⟨_, rfl, .sized sha1 type size t ⟨h_sha1, h_line.1⟩ ⟨h_type, h_fields.1⟩
            h_fields.2 h_fits rfl⟩
        · rw [if_neg h_fits]
          exact .inr (.inr rfl)
      · simp only [List.append_assoc, List.cons_append]
        rw [metadata_unsized ⟨h_sha1, h_line.1⟩ ⟨h_space₂, h_line.2.2⟩]
        exact .inl ⟨_, rfl, .unsized sha1 fields t ⟨h_sha1, h_line.1⟩ ⟨h_space₂, h_line.2.2⟩ rfl⟩
    · exact .inr (.inl (metadata_of_space_notMem h_line h_space t))
  · exact .inr (.inl (metadata_of_newline_notMem h_mem))

/-- **What `GitCatFileMetadata` accepts.** -/
theorem metadata_eq_ok_iff : metadata header = .ok m ↔ Heads header m := by
  constructor
  · intro h
    obtain ⟨m', h_ok, h_heads⟩ | h_error | h_error := metadata_cases header
    · obtain rfl := Except.ok.inj (h.symm.trans h_ok)
      exact h_heads
    · rw [h] at h_error
      cases h_error
    · rw [h] at h_error
      cases h_error
  · intro h
    cases h with
    | unsized sha1 type t h_sha1 h_type h => rw [h, metadata_unsized h_sha1 h_type]
    | sized sha1 type size t h_sha1 h_type h_size h_fits h =>
      rw [h, metadata_sized h_sha1 h_type h_size, atoi, if_pos h_fits]
      rfl

end GitlstreeFS.GitCatFile
