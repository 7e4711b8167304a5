import GitlstreeFS.Container.PathSet

/-!
# Looking at a container

What there is at a path (`look`), and where it comes from: a file from an `add` of it, and a key from the
paths that have been added and the names above them.
-/

namespace GitlstreeFS.DirectoryContainer

variable {F : Type} {σ : Statuses F} {c c' : Container F} {q p : List Str} {x : NewFile F} {f g : F}
  {adds adds' : List (List Str × NewFile F)} {S : List (List Str × F)}

/-! ### What there is -/

/-- What there is at a path: nothing, a pointer whose object is gone, or an object. -/
def Container.look (c : Container F) (s : Str) : Option (Option (NewFile F)) :=
  (c.get s).map fun ptr => (c.deref ptr).map Node.kind

/-- The statuses are what there is. -/
theorem Inv.look (h : Inv σ c) (hq : IsPath q) : c.look (render q) = σ q := by
  rw [Container.look, Container.get]
  cases hp : c.files (render q) with
  | none => exact ((h.key q hq).mp hp).symm
  | some ptr =>
    have h_seen : σ q ≠ none := fun h_none => by simp [(h.key q hq).mpr h_none] at hp
    rw [Option.map_some, h.deref_eq (.inr ⟨hq, hp⟩), h.shape q hq]
    cases hσ : σ q with
    | none => exact absurd hσ h_seen
    | some o => rfl

theorem Inv.look_root (h : Inv σ c) : c.look [slash] = some (some .dir) := by
  obtain ⟨es, h_root⟩ := h.root
  rw [Container.look, Container.get, h.files_root, Option.map_some, h.deref_eq (q := []) (.inl ⟨rfl, rfl⟩),
    h_root]
  rfl

/-- Nothing is anywhere else. -/
theorem Inv.look_eq_none (h : Inv σ c) {s : Str} (h_root : s ≠ [slash])
    (h_path : ∀ q, IsPath q → s ≠ render q) : c.look s = none := by
  have h_files : c.files s = none := by
    by_contra h_key
    obtain h_eq | ⟨q, hq, rfl⟩ := h.keys s h_key
    · exact h_root h_eq
    · exact h_path q hq rfl
  rw [Container.look, Container.get, h_files]
  rfl

/-- **Containers with the same statuses look the same.** -/
theorem Inv.look_eq (h : Inv σ c) (h' : Inv σ c') (s : Str) : c.look s = c'.look s := by
  by_cases h_root : s = [slash]
  · rw [h_root, h.look_root, h'.look_root]
  by_cases h_path : ∃ q, IsPath q ∧ s = render q
  · obtain ⟨q, hq, rfl⟩ := h_path
    rw [h.look hq, h'.look hq]
  · have h_none : ∀ q, IsPath q → s ≠ render q := fun q hq h_eq => h_path ⟨q, hq, h_eq⟩
    rw [h.look_eq_none h_root h_none, h'.look_eq_none h_root h_none]

theorem Represents.look (h : Represents c S) (h_mem : (q, f) ∈ S) :
    c.look (render q) = some (some (.file f)) := by
  obtain ⟨ptr, a, h_get, h_deref⟩ := h.file _ h_mem
  rw [Container.look, h_get, Option.map_some, h_deref]
  rfl

/-- No file lies below another, and there is one at a path only. -/
theorem Represents.incomparable (h : Represents c S) (h_mem : (q, f) ∈ S) (h_mem' : (p, g) ∈ S)
    (h_pre : q <+: p) (hq : q ≠ []) : q = p ∧ f = g := by
  have h_look := h.look h_mem
  by_cases h_eq : q = p
  · subst h_eq
    have h_same := h_look.symm.trans (h.look h_mem')
    exact ⟨rfl, by simpa using h_same⟩
  · -- the ancestor would be a directory
    have h_dir := (h.directories (render q)).mpr (.inr ⟨q, rfl, hq, _, h_mem', h_pre, h_eq⟩)
    obtain ⟨ptr, a, h_get, h_deref⟩ := h.file _ h_mem
    rw [Container.get] at h_get
    rw [Container.isDirectory, h_get] at h_dir
    simp only [h_deref] at h_dir
    cases h_dir

/-! ### Sequences of calls -/

theorem Container.addAll_singleton (c : Container F) (q : List Str) (x : NewFile F) :
    c.addAll [(q, x)] = c.add (render q) x := by
  rw [Container.addAll]
  cases c.add (render q) x with
  | error e => rfl
  | ok c' => rfl

theorem Container.addAll_append :
    c.addAll (adds ++ adds') = (c.addAll adds).bind fun c' => c'.addAll adds' := by
  induction adds generalizing c with
  | nil => rfl
  | cons e adds ih =>
    rw [List.cons_append, Container.addAll, Container.addAll]
    cases c.add (render e.1) e.2 with
    | error e => rfl
    | ok c' => exact ih

theorem Container.addAll_append_eq_ok_iff : c.addAll (adds ++ adds') = .ok c' ↔
    ∃ c₁, c.addAll adds = .ok c₁ ∧ c₁.addAll adds' = .ok c' := by
  rw [Container.addAll_append]
  cases c.addAll adds with
  | error m => exact ⟨fun h => (by cases h), fun ⟨c₁, h, _⟩ => (by cases h)⟩
  | ok c₁ =>
    constructor
    · intro h
      exact ⟨c₁, rfl, h⟩
    · rintro ⟨c₂, h_eq, h⟩
      rwa [Except.ok.inj h_eq]

theorem touch_nil : touch σ [] = σ := by
  funext r
  exact if_neg fun h => h.1 (List.prefix_nil.mp h.2)

/-- What is not above the path stays as it is, if nothing is below. -/
theorem extend_other (h_ne : q ≠ p) (h_below : p <+: q → σ q = none)
    (h_above : q = [] ∨ ¬ q <+: p.dropLast) : extend σ (p, x) q = σ q := by
  have h_not : ¬ (q ≠ [] ∧ q <+: p.dropLast) := fun h => h_above.elim h.1 fun h' => h' h.2
  rw [extend, put, if_neg h_ne, touch, if_neg h_not]
  by_cases h_pre : p <+: q
  · rw [if_pos h_pre, h_below h_pre]
    rfl
  · rw [if_neg h_pre]

/-- What is below it is gone. -/
theorem extend_below (hp : p ≠ []) (h_pre : p <+: q) (h_ne : q ≠ p) (h_seen : σ q ≠ none) :
    extend σ (p, x) q = some none := by
  have h_not : ¬ (q ≠ [] ∧ q <+: p.dropLast) := by
    rintro ⟨-, h⟩
    have h_length := (h_pre.trans h).length_le
    have h_pos := List.length_pos_iff.mpr hp
    rw [List.length_dropLast] at h_length
    omega
  obtain ⟨o, h_o⟩ := Option.ne_none_iff_exists'.mp h_seen
  rw [extend, put, if_neg h_ne, if_pos h_pre, touch, if_neg h_not, h_o]
  rfl

/-- What has been seen has been seen. -/
theorem extend_ne_none (h : σ q ≠ none) : extend σ (p, x) q ≠ none := by
  by_cases h_eq : q = p
  · rw [extend, put, if_pos h_eq]
    exact Option.some_ne_none _
  · rw [extend, ne_eq, put_eq_none_iff h_eq, touch]
    split
    · simp
    · exact h

theorem foldl_extend_ne_none (h : σ q ≠ none ∨ q ∈ adds.map Prod.fst) : adds.foldl extend σ q ≠ none := by
  induction adds generalizing σ with
  | nil => exact h.resolve_right List.not_mem_nil
  | cons e adds ih =>
    obtain ⟨p, y⟩ := e
    refine ih ?_
    rw [List.map_cons, List.mem_cons] at h
    obtain h | rfl | h := h
    · exact .inl (extend_ne_none h)
    · left
      rw [extend, put, if_pos rfl]
      exact Option.some_ne_none _
    · exact .inr h

/-- What a successful sequence leaves. -/
theorem inv_of_addAll (h_paths : ∀ e ∈ adds, IsPath e.1) (h : Container.empty.addAll adds = .ok c) :
    Along Clear (fun _ => none) adds ∧ Inv (adds.foldl extend fun _ => none) c := by
  obtain ⟨h_ok, h_error⟩ := inv_empty.addAll h_paths
  by_cases h_along : Along Clear (fun _ => none) adds
  · obtain ⟨c', h_c', h_inv⟩ := h_ok h_along
    obtain rfl := Except.ok.inj (h.symm.trans h_c')
    exact ⟨h_along, h_inv⟩
  · obtain ⟨e, h_e⟩ := h_error h_along
    rw [h] at h_e
    cases h_e

/-- A file is one that has been added. -/
theorem file_extend (h : extend σ (p, x) q = some (some (.file f))) :
    σ q = some (some (.file f)) ∨ (p, x) = (q, .file f) := by
  rw [extend, put] at h
  have h_touch {r q : List Str} (h : touch σ r q = some (some (.file f))) :
      σ q = some (some (.file f)) := by
    rw [touch] at h
    split at h
    · cases hσ : σ q with
      | none =>
        rw [hσ, Option.none_or] at h
        cases h
      | some o => rwa [hσ, Option.some_or] at h
    · exact h
  split at h
  · next h_eq =>
    obtain rfl := Option.some.inj (Option.some.inj h)
    exact .inr (by rw [h_eq])
  · split at h
    · cases h' : touch σ p.dropLast q with
      | none =>
        rw [h'] at h
        cases h
      | some o =>
        rw [h'] at h
        cases h
    · exact .inl (h_touch h)

theorem file_foldl (h : adds.foldl extend σ q = some (some (.file f))) :
    σ q = some (some (.file f)) ∨ (q, .file f) ∈ adds := by
  induction adds generalizing σ with
  | nil => exact .inl h
  | cons e adds ih =>
    obtain ⟨p, x⟩ := e
    obtain h' | h_mem := ih h
    · obtain h_old | h_new := file_extend h'
      · exact .inl h_old
      · rw [h_new]
        exact .inr List.mem_cons_self
    · exact .inr (List.mem_cons_of_mem _ h_mem)

/-- **A file that is there has been added.** -/
theorem mem_of_look (h_paths : ∀ e ∈ adds, IsPath e.1) (h_add : Container.empty.addAll adds = .ok c)
    (hq : IsPath q) (h : c.look (render q) = some (some (.file f))) : (q, .file f) ∈ adds := by
  obtain ⟨-, h_inv⟩ := inv_of_addAll h_paths h_add
  rw [h_inv.look hq] at h
  obtain h_none | h_mem := file_foldl h
  · cases h_none
  · exact h_mem

/-! ### Keys -/

section Keys

variable {P : Str → Prop} (h_up : ∀ s, P s → P (dirName s))

/-- All keys have the property. -/
def Keys (P : Str → Prop) (c : Container F) : Prop :=
  ∀ s, c.files s ≠ none → P s

theorem keys_empty (h : P [slash]) : Keys P (Container.empty : Container F) := by
  intro s hs
  by_cases h_root : s = [slash]
  · rwa [h_root]
  · have h_files : (Container.empty : Container F).files
        = Function.update (fun _ => none) [slash] (some rootPtr) := rfl
    rw [h_files, Function.update_of_ne h_root] at hs
    exact absurd rfl hs

theorem Keys.place {path n : Str} {dir ptr : Ptr} {a : ℕ} (h : Keys P c) (h_path : P path)
    (h_place : c.place path dir n a x = .ok (c', ptr)) : Keys P c' := by
  have h_files : c'.files = Function.update c.files path (some ⟨dir.loc ++ [n], a⟩) := by
    rw [Container.place, Container.addTo] at h_place
    split at h_place
    · cases h_place
    · next c₁ h_add =>
      obtain ⟨rfl, -⟩ := Prod.mk.inj (Except.ok.inj h_place)
      split at h_add
      · cases h_add
      · cases h_add
      · rw [← Except.ok.inj h_add]
  intro s hs
  rw [h_files] at hs
  by_cases h_eq : s = path
  · rwa [h_eq]
  · rw [Function.update_of_ne h_eq] at hs
    exact h s hs

include h_up

theorem Keys.maybeCreateParentDir {k : ℕ} {dirname : Str} {ptr : Ptr} (h : Keys P c)
    (h_dirname : P dirname) (h_made : Container.maybeCreateParentDir k c dirname = .ok (c', ptr)) :
    Keys P c' := by
  induction k generalizing c c' dirname ptr with
  | zero =>
    obtain ⟨rfl, -⟩ := Prod.mk.inj (Except.ok.inj h_made)
    exact h
  | succ k ih =>
    rw [Container.maybeCreateParentDir] at h_made
    split at h_made
    · obtain ⟨rfl, -⟩ := Prod.mk.inj (Except.ok.inj h_made)
      exact h
    split at h_made
    · obtain ⟨rfl, -⟩ := Prod.mk.inj (Except.ok.inj h_made)
      exact h
    · -- the parent may be made first
      have h₁ : Keys P { c with next := c.next + 1 } := h
      dsimp only at h_made
      split at h_made
      · cases h_made
      · next c₂ dir h_found =>
        refine Keys.place ?_ h_dirname h_made
        split at h_found
        · obtain ⟨rfl, -⟩ := Prod.mk.inj (Except.ok.inj h_found)
          exact h₁
        · exact ih h₁ (h_up _ h_dirname) h_found

theorem Keys.add {path : Str} (h : Keys P c) (h_path : P path) (h_add : c.add path x = .ok c') :
    Keys P c' := by
  rw [Container.add] at h_add
  split at h_add
  · cases h_add
  · next c₁ dir h_made =>
    have h₁ := h.maybeCreateParentDir h_up (h_up _ h_path) h_made
    split at h_add
    · cases h_add
    · next c₂ ptr h_place =>
      obtain rfl := Except.ok.inj h_add
      exact Keys.place (c := { c₁ with next := c₁.next + 1 }) h₁ h_path h_place

theorem Keys.addAll (h : Keys P c) (h_paths : ∀ e ∈ adds, P (render e.1))
    (h_add : c.addAll adds = .ok c') : Keys P c' := by
  induction adds generalizing c with
  | nil =>
    obtain rfl := Except.ok.inj h_add
    exact h
  | cons e adds ih =>
    rw [Container.addAll] at h_add
    split at h_add
    · cases h_add
    · next c₁ h_first =>
      exact ih (h.add h_up (h_paths e List.mem_cons_self) h_first)
        (fun e he => h_paths e (List.mem_cons_of_mem _ he)) h_add

end Keys

end GitlstreeFS.DirectoryContainer
