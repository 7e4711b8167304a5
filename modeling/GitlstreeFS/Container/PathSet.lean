import GitlstreeFS.Container.Index

/-!
# The container as a set of paths

`Represents c S` is what a container is for: it holds the files of `S` at their paths, their
ancestors as directories, and nothing else, and a directory lists each of its children once.

`exists_represents` says that adding files in any order yields such a container, provided none of
their paths lies below another. Since `Represents` speaks of the set only, the order makes no
difference (`Represents.same`).
-/

namespace GitlstreeFS.DirectoryContainer

variable {F : Type} {σ : Statuses F} {c c' : Container F} {q p : List Str} {n : Str} {f : F}
  {S adds : List (List Str × F)}

/-- The key of a directory. -/
def dirPath (q : List Str) : Str :=
  if q = [] then [slash] else render q

/-- `q` is an ancestor of a path of `S`, and not that path itself. -/
def IsAncestor (S : List (List Str × F)) (q : List Str) : Prop :=
  q ≠ [] ∧ ∃ e ∈ S, q <+: e.1 ∧ q ≠ e.1

/-- The container holds the files `S`, and the directories above them. -/
structure Represents (c : Container F) (S : List (List Str × F)) : Prop where
  file : ∀ e ∈ S, ∃ ptr a, c.get (render e.1) = some ptr ∧ c.deref ptr = some (.file a e.2)
  keys : ∀ s, c.get s ≠ none ↔
    s = [slash] ∨ ∃ q, s = render q ∧ ((∃ e ∈ S, q = e.1) ∨ IsAncestor S q)
  directories : ∀ s, c.isDirectory s = true ↔ s = [slash] ∨ ∃ q, s = render q ∧ IsAncestor S q
  /-- The names a directory lists are those of its children. -/
  children : ∀ q, q = [] ∨ IsAncestor S q → ∀ n,
    n ∈ (c.forEach (dirPath q)).map Prod.fst ↔ ∃ e ∈ S, q ++ [n] <+: e.1
  /-- Each is listed once. -/
  once : ∀ s, ((c.forEach s).map Prod.fst).Nodup

/-- None of the paths lies below another, and no two are the same. -/
def PrefixFree (S : List (List Str × F)) : Prop :=
  S.Pairwise fun e e' => ¬ e.1 <+: e'.1 ∧ ¬ e'.1 <+: e.1

instance (S : List (List Str × F)) : Decidable (PrefixFree S) :=
  inferInstanceAs (Decidable (List.Pairwise _ S))

/-! ### Statuses -/

/-- The statuses are those of a container with the files `S`. -/
structure Tracks (σ : Statuses F) (S : List (List Str × F)) : Prop where
  file : ∀ e ∈ S, σ e.1 = some (some (.file e.2))
  dir : ∀ q, IsAncestor S q → σ q = some (some .dir)
  seen : ∀ q, σ q ≠ none → q ≠ [] ∧ ∃ e ∈ S, q <+: e.1

theorem tracks_nil : Tracks (fun _ => none : Statuses F) [] :=
  ⟨by simp, fun q h => by simpa using h.2, fun q h => absurd rfl h⟩

/-- The ancestors of a path that does not lie below a file are directories. -/
theorem Tracks.clear (h : Tracks σ S) (h_free : ∀ e ∈ S, ¬ e.1 <+: p) : Clear σ p := by
  intro q hq h_pre h_ne
  by_contra h_bad
  obtain ⟨-, e, he, h_le⟩ := h.seen q fun h_none => h_bad (Or.inl h_none)
  refine h_bad (Or.inr (h.dir q ⟨hq, e, he, h_le, ?_⟩))
  rintro rfl
  exact h_free e he h_pre

/-- One more file. -/
theorem Tracks.extend (h : Tracks σ S) (hp : IsPath p) (h_below : ∀ e ∈ S, ¬ e.1 <+: p)
    (h_above : ∀ e ∈ S, ¬ p <+: e.1) : Tracks (extend σ (p, .file f)) (S ++ [(p, f)]) := by
  have h_clear := h.clear h_below
  -- nothing has been at or below `p`: it would be above a file of `S`
  have h_unseen : ∀ q, p <+: q → σ q = none := by
    intro q h_pre
    by_contra h_seen
    obtain ⟨-, e, he, h_le⟩ := h.seen q h_seen
    exact h_above e he (h_pre.trans h_le)
  have h_proper : ∀ q, q <+: p.dropLast → q <+: p ∧ q ≠ p := by
    intro q hq
    refine ⟨hq.trans (List.dropLast_prefix p), ?_⟩
    rintro rfl
    have h_len := hq.length_le
    rw [List.length_dropLast] at h_len
    exact hp.ne_nil (List.length_eq_zero_iff.mp (by omega))
  constructor
  -- the new file hides none of the others, for it is not above one
  case file =>
    intro e he
    rcases List.mem_append.mp he with he | he
    · have h_file := h.file e he
      have h_ne : e.1 ≠ p := fun h_eq => h_below e he (h_eq ▸ List.prefix_refl _)
      rw [DirectoryContainer.extend, put, if_neg h_ne, if_neg (h_above e he), touch]
      split
      · rw [h_file, Option.some_or]
      · exact h_file
    · obtain rfl := List.mem_singleton.mp he
      exact if_pos rfl
  case dir =>
    rintro q ⟨hq, e, he, h_pre, h_ne⟩
    rcases List.mem_append.mp he with he | he
    · have h_dir := h.dir q ⟨hq, e, he, h_pre, h_ne⟩
      have h_not : ¬ p <+: q := fun h_le => h_above e he (h_le.trans h_pre)
      have h_ne' : q ≠ p := fun h_eq => h_not (h_eq ▸ List.prefix_refl _)
      rw [DirectoryContainer.extend, put, if_neg h_ne', if_neg h_not, touch]
      split
      · rw [h_dir, Option.some_or]
      · exact h_dir
    · -- a directory above the new file: it has been made now, or it was there
      obtain rfl := List.mem_singleton.mp he
      have h_not : ¬ p <+: q := fun h_le => h_ne (h_pre.eq_of_length_le h_le.length_le)
      have h_up : q <+: p.dropLast := by
        obtain ⟨p', m, rfl⟩ := (List.eq_nil_or_concat' p).resolve_left hp.ne_nil
        rw [List.dropLast_concat]
        exact (List.prefix_concat_iff.mp h_pre).resolve_left h_ne
      rw [DirectoryContainer.extend, put, if_neg h_ne, if_neg h_not, touch, if_pos ⟨hq, h_up⟩]
      rcases h_clear q hq h_pre h_ne with hσ | hσ
      · rw [hσ, Option.none_or]
      · rw [hσ, Option.some_or]
  case seen =>
    intro q h_seen
    by_cases h_eq : q = p
    · subst h_eq
      exact ⟨hp.ne_nil, (q, f), by simp, List.prefix_refl _⟩
    rw [DirectoryContainer.extend, ne_eq, put_eq_none_iff h_eq, touch] at h_seen
    split at h_seen
    · next hq => exact ⟨hq.1, (p, f), by simp, (h_proper q hq.2).1⟩
    · obtain ⟨hq, e, he, h_pre⟩ := h.seen q h_seen
      exact ⟨hq, e, by simp [he], h_pre⟩

/-- Adding files whose paths do not lie below each other. -/
theorem Tracks.run (h : Tracks σ S) (h_free : PrefixFree (S ++ adds))
    (h_paths : ∀ e ∈ adds, IsPath e.1) :
    Along Clear σ (adds.map fun e => (e.1, NewFile.file e.2)) ∧
      Tracks ((adds.map fun e => (e.1, NewFile.file e.2)).foldl DirectoryContainer.extend σ)
        (S ++ adds) := by
  induction adds generalizing σ S with
  | nil => exact ⟨trivial, by simpa using h⟩
  | cons e adds ih =>
    obtain ⟨p, f⟩ := e
    have hp : IsPath p := h_paths _ List.mem_cons_self
    have h_pair := (List.pairwise_append.mp h_free).2.2
    have h_below : ∀ e ∈ S, ¬ e.1 <+: p := fun e he => (h_pair e he _ List.mem_cons_self).1
    have h_above : ∀ e ∈ S, ¬ p <+: e.1 := fun e he => (h_pair e he _ List.mem_cons_self).2
    have h' := h.extend (f := f) hp h_below h_above
    rw [List.append_cons] at h_free ⊢
    obtain ⟨h_along, h_tracks⟩ := ih h' h_free fun e he => h_paths e (List.mem_cons_of_mem _ he)
    exact ⟨⟨h.clear h_below, h_along⟩, h_tracks⟩

/-! ### Observations -/

theorem lookup_eq_none_iff {es : List (Str × Node F)} : es.lookup n = none ↔ n ∉ es.map Prod.fst := by
  induction es with
  | nil => simp
  | cons e es ih =>
    rw [List.lookup_cons]
    by_cases h : n = e.1
    · simp [h]
    · have h_ne : (n == e.1) = false := by simpa using h
      simp [h_ne, h, ih]

/-- The paths that have been seen are those of the files and their ancestors. -/
theorem Tracks.seen_iff (h : Tracks σ S) :
    σ q ≠ none ↔ (∃ e ∈ S, q = e.1) ∨ IsAncestor S q := by
  constructor
  · intro h_seen
    obtain ⟨hq, e, he, h_pre⟩ := h.seen q h_seen
    by_cases h_eq : q = e.1
    · exact Or.inl ⟨e, he, h_eq⟩
    · exact Or.inr ⟨hq, e, he, h_pre, h_eq⟩
  · rintro (⟨e, he, rfl⟩ | h_dir)
    · simp [h.file e he]
    · simp [h.dir q h_dir]

theorem isPath_of_isAncestor (h_paths : ∀ e ∈ S, IsPath e.1) (h : IsAncestor S q) : IsPath q := by
  obtain ⟨hq, e, he, h_pre, -⟩ := h
  exact (h_paths e he).of_isPrefix h_pre hq

/-- Where nothing is gone, a path is a directory just if it is an ancestor of a file. -/
theorem Tracks.dir_iff (h : Tracks σ S) : σ q = some (some .dir) ↔ IsAncestor S q := by
  refine ⟨fun h_dir => ?_, h.dir q⟩
  obtain ⟨hq, e, he, h_pre⟩ := h.seen q (by simp [h_dir])
  refine ⟨hq, e, he, h_pre, ?_⟩
  rintro rfl
  simp [h.file e he] at h_dir

theorem Tracks.not_gone (h : Tracks σ S) : σ q ≠ some none := by
  intro h_gone
  rcases h.seen_iff.mp (by simp [h_gone] : σ q ≠ none) with ⟨e, he, rfl⟩ | h_dir
  · simp [h.file e he] at h_gone
  · simp [h.dir q h_dir] at h_gone

/-- What a directory lists. -/
theorem Inv.forEach_dirPath (h : Inv σ c) (hq : Usable σ q) :
    ∃ a, c.root.descend q = some (.dir a (c.forEach (dirPath q))) := by
  obtain ⟨a, es, h_desc⟩ := h.descend_usable hq
  obtain ⟨ptr, hp, h_des⟩ : ∃ ptr, c.files (dirPath q) = some ptr ∧ Designates c q ptr := by
    rcases hq with rfl | ⟨hq, h_dir⟩
    · exact ⟨rootPtr, by rw [dirPath, if_pos rfl, h.files_root], Or.inl ⟨rfl, rfl⟩⟩
    · have h_key : c.files (render q) ≠ none := fun h_none => by
        simp [(h.key q hq).mp h_none] at h_dir
      obtain ⟨ptr, hp⟩ := Option.ne_none_iff_exists'.mp h_key
      exact ⟨ptr, by rw [dirPath, if_neg hq.ne_nil, hp], Or.inr ⟨hq, hp⟩⟩
  refine ⟨a, ?_⟩
  rw [Container.forEach, Container.get, hp]
  dsimp only
  rw [h.deref_eq h_des, h_desc]

theorem Inv.isDirectory_root (h : Inv σ c) : c.isDirectory [slash] = true := by
  obtain ⟨es, h_root⟩ := h.root
  have h_deref := h.deref_eq (q := []) (Or.inl ⟨rfl, rfl⟩)
  rw [Container.isDirectory, h.files_root]
  dsimp only
  rw [h_deref, h_root]
  rfl

theorem Inv.isDirectory_render (h : Inv σ c) (hq : IsPath q) :
    c.isDirectory (render q) = true ↔ σ q = some (some .dir) := by
  rw [h.dir_iff hq, Container.isDirectory]
  rcases hp : c.files (render q) with _ | ptr
  · refine iff_of_false (by simp) ?_
    rintro ⟨a, es, h_desc⟩
    obtain ⟨-, ptr, hp', -⟩ := h.owned q _ hq.ne_nil h_desc
    simp [hp] at hp'
  · dsimp only
    rw [h.deref_eq (Or.inr ⟨hq, hp⟩)]
    rcases c.root.descend q with _ | ⟨a, f⟩ | ⟨a, es⟩ <;> simp

/-- A path is in the tree just if it has been seen and is not gone. -/
theorem Inv.descend_eq_none_iff (h : Inv σ c) (ht : Tracks σ S) (hq : IsPath q) :
    c.root.descend q = none ↔ σ q = none := by
  have h_shape := h.shape q hq
  rcases hσ : σ q with _ | _ | x
  · rw [hσ] at h_shape
    simpa using h_shape
  · exact absurd hσ ht.not_gone
  · rw [hσ, Option.join_some] at h_shape
    simp only [reduceCtorEq, iff_false]
    rintro h_none
    simp [h_none] at h_shape

/-- A container whose statuses are those of the files `S` represents them. -/
theorem Inv.represents (h : Inv σ c) (ht : Tracks σ S) (h_paths : ∀ e ∈ S, IsPath e.1) :
    Represents c S := by
  -- the names that the map knows: those of the files, and of the directories above them
  have h_key : ∀ q, IsPath q → (c.files (render q) ≠ none ↔ (∃ e ∈ S, q = e.1) ∨ IsAncestor S q) :=
    fun q hq => (not_congr (h.key q hq)).trans ht.seen_iff
  have h_isPath : ∀ q, (∃ e ∈ S, q = e.1) ∨ IsAncestor S q → IsPath q := by
    rintro q (⟨e, he, rfl⟩ | h_dir)
    · exact h_paths e he
    · exact isPath_of_isAncestor h_paths h_dir
  constructor
  case file =>
    intro e he
    have hq := h_paths e he
    have h_shape := h.shape e.1 hq
    rw [ht.file e he, Option.join_some, Option.map_eq_some_iff] at h_shape
    obtain ⟨t, h_desc, h_kind⟩ := h_shape
    obtain ⟨ptr, hp⟩ := Option.ne_none_iff_exists'.mp ((h_key _ hq).mpr (Or.inl ⟨e, he, rfl⟩))
    refine ⟨ptr, t.addr, hp, ?_⟩
    rw [h.deref_eq (Or.inr ⟨hq, hp⟩), h_desc]
    cases t with
    | dir a es => simp [Node.kind] at h_kind
    | file a f =>
      obtain rfl : f = e.2 := by simpa [Node.kind] using h_kind
      rfl
  case keys =>
    intro s
    constructor
    · intro h_get
      rcases h.keys s h_get with h_root | ⟨q, hq, rfl⟩
      · exact Or.inl h_root
      · exact Or.inr ⟨q, rfl, (h_key q hq).mp h_get⟩
    · rintro (rfl | ⟨q, rfl, hq⟩)
      · simp [Container.get, h.files_root]
      · exact (h_key q (h_isPath q hq)).mpr hq
  case directories =>
    intro s
    constructor
    · intro h_dir
      have h_files : c.files s ≠ none := fun h_none => by
        simp [Container.isDirectory, h_none] at h_dir
      rcases h.keys s h_files with h_root | ⟨q, hq, rfl⟩
      · exact Or.inl h_root
      · exact Or.inr ⟨q, rfl, ht.dir_iff.mp ((h.isDirectory_render hq).mp h_dir)⟩
    · rintro (rfl | ⟨q, rfl, h_dir⟩)
      · exact h.isDirectory_root
      · exact (h.isDirectory_render (isPath_of_isAncestor h_paths h_dir)).mpr (ht.dir q h_dir)
  case children =>
    intro q hq n
    have h_usable : Usable σ q := hq.imp_right fun h_dir =>
      ⟨isPath_of_isAncestor h_paths h_dir, ht.dir q h_dir⟩
    -- a child is there if the path with its name is, and what is there has come with a file
    obtain ⟨a, h_desc⟩ := h.forEach_dirPath h_usable
    generalize c.forEach (dirPath q) = es at h_desc ⊢
    have h_child : c.root.descend (q ++ [n]) = es.lookup n := by
      rw [descend_append, h_desc, Option.bind_some, Node.descend]
      rcases es.lookup n with _ | t <;> rfl
    rw [← not_iff_not, ← lookup_eq_none_iff, ← h_child]
    constructor
    · rintro h_none ⟨e, he, h_pre⟩
      have h_path := (h_paths e he).of_isPrefix h_pre (by simp)
      refine ht.seen_iff.mpr ?_ ((h.descend_eq_none_iff ht h_path).mp h_none)
      by_cases h_eq : q ++ [n] = e.1
      · exact Or.inl ⟨e, he, h_eq⟩
      · exact Or.inr ⟨by simp, e, he, h_pre, h_eq⟩
    · intro h_not
      by_contra h_some
      obtain ⟨t, h_t⟩ := Option.ne_none_iff_exists'.mp h_some
      have h_path := (h.owned _ t (by simp) h_t).1
      obtain ⟨-, e, he, h_pre⟩ := ht.seen (q ++ [n]) fun h_none =>
        h_some ((h.descend_eq_none_iff ht h_path).mpr h_none)
      exact h_not ⟨e, he, h_pre⟩
  case once =>
    intro s
    unfold Container.forEach
    split
    · exact List.nodup_nil
    · split
      · next ptr hp a es h_deref =>
        rw [Container.deref, Option.filter_eq_some_iff] at h_deref
        exact h.nodup _ _ h_deref.1
      · exact List.nodup_nil

/-- A container that tracks files represents them. -/
theorem represents_addAll (h_paths : ∀ e ∈ S, IsPath e.1) (h_free : PrefixFree S) :
    ∃ c, Container.empty.addAll (S.map fun e => (e.1, NewFile.file e.2)) = .ok c ∧ Represents c S := by
  obtain ⟨h_along, h_tracks⟩ := tracks_nil.run (by rwa [List.nil_append]) h_paths
  obtain ⟨c, hc, h⟩ := (inv_empty.addAll fun e he => by
    obtain ⟨e', he', rfl⟩ := List.mem_map.mp he
    exact h_paths e' he').1 h_along
  exact ⟨c, hc, h.represents h_tracks h_paths⟩

theorem PrefixFree.of_perm (h : PrefixFree S) (h_order : adds.Perm S) : PrefixFree adds := by
  have h_symm : ∀ {e e' : List Str × F}, ¬ e.1 <+: e'.1 ∧ ¬ e'.1 <+: e.1 →
      ¬ e'.1 <+: e.1 ∧ ¬ e.1 <+: e'.1 := And.symm
  exact (h_order.pairwise_iff h_symm).mpr h

/-- The order of the files makes no difference. -/
theorem Represents.of_perm (h : Represents c adds) (h_order : adds.Perm S) : Represents c S := by
  have h_ancestor {q : List Str} : IsAncestor adds q ↔ IsAncestor S q := by
    simp only [IsAncestor, h_order.mem_iff]
  refine ⟨fun e he => h.file e (h_order.mem_iff.mpr he), fun s => ?_, fun s => ?_, fun q hq n => ?_, h.once⟩
  · rw [h.keys]
    simp only [h_ancestor, h_order.mem_iff]
  · rw [h.directories]
    simp only [h_ancestor]
  · rw [h.children q (hq.imp_right h_ancestor.mpr)]
    simp only [h_order.mem_iff]

/-- **The path set.** Files of which no path lies below another can be added in any order, and the
container then represents them. -/
theorem exists_represents (S adds : List (List Str × F)) (h_order : adds.Perm S)
    (h_paths : ∀ e ∈ S, IsPath e.1) (h_free : PrefixFree S) :
    ∃ c, Container.empty.addAll (adds.map fun e => (e.1, NewFile.file e.2)) = .ok c ∧
      Represents c S := by
  have h_paths' : ∀ e ∈ adds, IsPath e.1 := fun e he => h_paths e (h_order.mem_iff.mp he)
  obtain ⟨c, h_add, h_represents⟩ := represents_addAll h_paths' (h_free.of_perm h_order)
  exact ⟨c, h_add, h_represents.of_perm h_order⟩

/-- Two files below one directory, and one beside it. -/
def threeFiles : List (List Str × Bool) :=
  [([str "hoge", str "bbb"], true), ([str "a"], false), ([str "hoge", str "ccc"], false)]

theorem exists_represents_threeFiles :
    ∃ c, Container.empty.addAll (threeFiles.map fun e => (e.1, NewFile.file e.2)) = .ok c ∧
      Represents c threeFiles :=
  exists_represents threeFiles threeFiles (.refl _) (by decide) (by decide)

/-- Containers of the same files cannot be told apart by their keys, by `is_directory` or by the
names `for_each` visits. -/
theorem Represents.same (h : Represents c S) (h' : Represents c' S) :
    (∀ s, c.get s = none ↔ c'.get s = none) ∧ (∀ s, c.isDirectory s = c'.isDirectory s) ∧
      ∀ q, q = [] ∨ IsAncestor S q →
        ((c.forEach (dirPath q)).map Prod.fst).Perm ((c'.forEach (dirPath q)).map Prod.fst) := by
  refine ⟨fun s => not_iff_not.mp ((h.keys s).trans (h'.keys s).symm), fun s => ?_, fun q hq => ?_⟩
  · rw [Bool.eq_iff_iff, h.directories, h'.directories]
  · exact (List.perm_ext_iff_of_nodup (h.once _) (h'.once _)).mpr fun n =>
      (h.children q hq n).trans (h'.children q hq n).symm

end GitlstreeFS.DirectoryContainer
