import GitlstreeFS.Container.Model

/-!
# The index and the tree

What a sequence of `add` calls leaves of a path is its *status*: the path was never seen, or it
has an object, or it has an entry in `files_` whose object is gone (`some none`). `extend` gives
the status after one more `add`, from the path and the kind of the new object alone.

`Inv` says that a container is as the statuses say. `Inv.add` is the step: if every ancestor of
the path is a directory or not there yet (`Clear`), `add` goes well and the statuses are extended;
if not, it goes through a pointer that leads to no directory (`Inv.add_misuse`).

Over runs this gives the two results. `addAll_ok_iff` says for which sequences every pointer that
is cast to a `Directory` leads to one, and `agrees_along_iff` for which sequences index and tree
agree all the way: nothing may be added above a path that has been seen.
-/

namespace GitlstreeFS.DirectoryContainer

variable {F : Type}

/-- What is known about each path. -/
abbrev Statuses (F : Type) := List Str → Option (Option (NewFile F))

variable {σ : Statuses F} {c : Container F} {q q₀ p r : List Str} {n : Str} {x : NewFile F}

/-! ### Statuses -/

/-- The path is a directory on its way into the container, or already in it. -/
def Passable (σ : Statuses F) (q : List Str) : Prop :=
  σ q = none ∨ σ q = some (some .dir)

/-- Every ancestor of `p` is a directory or not there yet. -/
def Clear (σ : Statuses F) (p : List Str) : Prop :=
  ∀ q, q ≠ [] → q <+: p → q ≠ p → Passable σ q

/-- Nothing has been added below `p`. -/
def NothingBelow (σ : Statuses F) (p : List Str) : Prop :=
  ∀ q, IsPath q → p <+: q → q ≠ p → σ q = none

/-- The directories up to `q` are created where they are missing. -/
def touch (σ : Statuses F) (q : List Str) : Statuses F :=
  fun r => if r ≠ [] ∧ r <+: q then (σ r).or (some (some .dir)) else σ r

/-- A new object is put at `p`, and what was below `p` is gone. -/
def put (σ : Statuses F) (p : List Str) (x : NewFile F) : Statuses F :=
  fun r => if r = p then some (some x) else if p <+: r then (σ r).map fun _ => none else σ r

/-- The statuses after `add`. -/
def extend (σ : Statuses F) (e : List Str × NewFile F) : Statuses F :=
  put (touch σ e.1.dropLast) e.1 e.2

/-- The ancestors of a path that has been seen have been seen. -/
def Closed (σ : Statuses F) : Prop :=
  ∀ q n, q ≠ [] → σ (q ++ [n]) ≠ none → σ q ≠ none

theorem Closed.of_isPrefix (h : Closed σ) (hq : q ≠ []) (hp : q <+: r) (hr : σ r ≠ none) :
    σ q ≠ none := by
  obtain ⟨s, rfl⟩ := hp
  induction s using List.reverseRecOn with
  | nil => simpa using hr
  | append_singleton s n ih =>
    refine ih (h (q ++ s) n (by simp [hq]) ?_)
    rwa [List.append_assoc]

/-- Nothing is missing up to a path that has been seen. -/
theorem touch_of_seen (h : Closed σ) (hq : q = [] ∨ σ q ≠ none) : touch σ q = σ := by
  funext r
  unfold touch
  split
  · next hr =>
    rcases hq with rfl | hq
    · exact absurd (List.prefix_nil.mp hr.2) hr.1
    · obtain ⟨y, hy⟩ := Option.ne_none_iff_exists'.mp (h.of_isPrefix hr.1 hr.2 hq)
      rw [hy, Option.some_or]
  · rfl

/-- The last directory up to `q ++ [n]` is created after the others. -/
theorem put_touch (h : Closed σ) (hq : σ (q ++ [n]) = none) :
    put (touch σ q) (q ++ [n]) .dir = touch σ (q ++ [n]) := by
  have h_below : ∀ r, q ++ [n] <+: r → σ r = none := by
    intro r hr
    by_contra h_seen
    exact h.of_isPrefix (by simp) hr h_seen hq
  funext r
  unfold put touch
  by_cases h_eq : r = q ++ [n]
  · subst h_eq
    rw [if_pos rfl, if_pos ⟨by simp, List.prefix_refl _⟩, hq, Option.none_or]
  · rw [if_neg h_eq]
    by_cases h_le : q ++ [n] <+: r
    · have h_not : ¬ r <+: q ++ [n] := fun h' => h_eq (h'.eq_of_length_le h_le.length_le)
      have h_not' : ¬ r <+: q := fun h' => h_not (h'.trans (List.prefix_append _ _))
      rw [if_pos h_le, if_neg fun h => h_not' h.2, if_neg fun h => h_not h.2, h_below r h_le]
      rfl
    · rw [if_neg h_le]
      have h_iff : r <+: q ++ [n] ↔ r <+: q := by
        rw [List.prefix_concat_iff]
        simp [h_eq]
      simp only [h_iff]

theorem put_eq_none_iff (hr : r ≠ p) : put σ p x r = none ↔ σ r = none := by
  unfold put
  rw [if_neg hr]
  split <;> simp

theorem closed_put (h : Closed σ) (hq : q = [] ∨ σ q ≠ none) : Closed (put σ (q ++ [n]) x) := by
  intro r m hr h_seen
  by_cases h_new : r = q ++ [n]
  · simp [put, h_new]
  rw [ne_eq, put_eq_none_iff h_new]
  by_cases h_eq : r ++ [m] = q ++ [n]
  · obtain ⟨rfl, -⟩ := List.append_inj' h_eq rfl
    exact hq.resolve_left hr
  · rw [ne_eq, put_eq_none_iff h_eq] at h_seen
    exact h r m hr h_seen

/-! ### The invariant -/

/-- The container is as the statuses say. -/
structure Inv (σ : Statuses F) (c : Container F) : Prop where
  root : ∃ es, c.root = .dir 0 es
  files_root : c.files [slash] = some rootPtr
  /-- The keys are the root and the paths that have been seen. -/
  keys : ∀ s, c.files s ≠ none → s = [slash] ∨ ∃ q, IsPath q ∧ s = render q
  key : ∀ q, IsPath q → (c.files (render q) = none ↔ σ q = none)
  loc : ∀ q ptr, IsPath q → c.files (render q) = some ptr → ptr.loc = q
  /-- An object in the tree is designated by its path. -/
  owned : ∀ q t, q ≠ [] → c.root.descend q = some t →
    IsPath q ∧ ∃ ptr, c.files (render q) = some ptr ∧ ptr.addr = t.addr
  /-- The objects in the tree are those that are not gone. -/
  shape : ∀ q, IsPath q → (c.root.descend q).map Node.kind = (σ q).join
  closed : Closed σ
  nodup : ∀ q t, c.root.descend q = some t → t.NodupNames

theorem inv_empty : Inv (fun _ => none : Statuses F) Container.empty where
  root := ⟨[], rfl⟩
  files_root := by simp [Container.empty]
  keys s h := by
    by_contra h_not
    rw [not_or] at h_not
    simp [Container.empty, h_not.1] at h
  key q hq := by simp [Container.empty, render_ne_slash hq]
  loc q ptr hq h := by simp [Container.empty, render_ne_slash hq] at h
  owned q t hq h := by
    obtain ⟨n, q, rfl⟩ := List.exists_cons_of_ne_nil hq
    simp [Container.empty, Node.descend] at h
  shape q hq := by
    obtain ⟨n, q, rfl⟩ := List.exists_cons_of_ne_nil hq.ne_nil
    simp [Container.empty, Node.descend]
  closed := fun _ _ _ h => absurd rfl h
  nodup q t h := by
    cases q with
    | nil =>
      obtain rfl : Node.dir 0 [] = t := by simpa [Container.empty, Node.descend] using h
      exact List.nodup_nil
    | cons n q => simp [Container.empty, Node.descend] at h

namespace Inv

/-- An address that is not used yet changes nothing. -/
theorem setNext (h : Inv σ c) (k : ℕ) : Inv σ { c with next := k } :=
  ⟨h.root, h.files_root, h.keys, h.key, h.loc, h.owned, h.shape, h.closed, h.nodup⟩

/-- A path that has a directory is in the tree as one. -/
theorem dir_iff (h : Inv σ c) (hq : IsPath q) :
    σ q = some (some .dir) ↔ ∃ a es, c.root.descend q = some (.dir a es) := by
  have h_shape := h.shape q hq
  constructor
  · intro hσ
    rw [hσ, Option.join_some, Option.map_eq_some_iff] at h_shape
    obtain ⟨t, ht, h_kind⟩ := h_shape
    cases t with
    | file a f => simp [Node.kind] at h_kind
    | dir a es => exact ⟨a, es, ht⟩
  · rintro ⟨a, es, ht⟩
    rw [ht] at h_shape
    rcases hσ : σ q with _ | _ | y
    · simp [hσ] at h_shape
    · simp [hσ] at h_shape
    · rw [hσ] at h_shape
      simp only [Option.map_some, Option.join_some, Option.some.injEq] at h_shape
      rw [← h_shape]
      rfl

/-- Above a directory there are directories. -/
theorem dir_of_isPrefix (h : Inv σ c) (hq : q ≠ []) (hr : IsPath r) (hp : q <+: r)
    (h_dir : σ r = some (some .dir)) : σ q = some (some .dir) := by
  rw [h.dir_iff (hr.of_isPrefix hp hq)]
  obtain ⟨a, es, h_desc⟩ := (h.dir_iff hr).mp h_dir
  obtain ⟨s, rfl⟩ := hp
  rw [descend_append, Option.bind_eq_some_iff] at h_desc
  obtain ⟨t, ht, h_rest⟩ := h_desc
  cases t with
  | dir b es' => exact ⟨b, es', ht⟩
  | file b f =>
    cases s with
    | nil => simp [Node.descend] at h_rest
    | cons m s => simp [Node.descend] at h_rest

/-- The pointer to the place `q`: the root's, or the one in the index. -/
def Designates (c : Container F) (q : List Str) (ptr : Ptr) : Prop :=
  q = [] ∧ ptr = rootPtr ∨ IsPath q ∧ c.files (render q) = some ptr

theorem loc_of_designates (h : Inv σ c) {ptr : Ptr} (hp : Designates c q ptr) : ptr.loc = q := by
  rcases hp with ⟨rfl, rfl⟩ | ⟨hq, hp⟩
  · rfl
  · exact h.loc q ptr hq hp

/-- What a pointer leads to: what is at its place in the tree. -/
theorem deref_eq (h : Inv σ c) {ptr : Ptr} (hp : Designates c q ptr) :
    c.deref ptr = c.root.descend q := by
  unfold Container.deref
  rw [h.loc_of_designates hp]
  rcases h_desc : c.root.descend q with _ | t
  · rfl
  · rcases hp with ⟨rfl, rfl⟩ | ⟨hq, hp⟩
    · obtain ⟨es, h_root⟩ := h.root
      obtain rfl : Node.dir 0 es = t := by simpa [h_root, Node.descend] using h_desc
      rfl
    · obtain ⟨-, ptr', hp', h_addr⟩ := h.owned q t hq.ne_nil h_desc
      obtain rfl : ptr = ptr' := Option.some.inj (hp.symm.trans hp')
      simp [h_addr]

/-- Something may be put into the directory at `q`. -/
def Usable (σ : Statuses F) (q : List Str) : Prop :=
  q = [] ∨ IsPath q ∧ σ q = some (some .dir)

theorem descend_usable (h : Inv σ c) (hq : Usable σ q) :
    ∃ a es, c.root.descend q = some (.dir a es) := by
  rcases hq with rfl | ⟨hq, h_dir⟩
  · obtain ⟨es, h_root⟩ := h.root
    exact ⟨0, es, by rw [h_root]; rfl⟩
  · exact (h.dir_iff hq).mp h_dir

/-- **One insertion.** -/
theorem place (h : Inv σ c) {ptr : Ptr} (hq : Usable σ q) (hp : Designates c q ptr)
    (h_path : IsPath (q ++ [n])) (a : ℕ) (x : NewFile F) :
    ∃ c', c.place (render (q ++ [n])) ptr n a x = .ok (c', ⟨q ++ [n], a⟩) ∧
      c'.files (render (q ++ [n])) = some ⟨q ++ [n], a⟩ ∧ Inv (put σ (q ++ [n]) x) c' := by
  obtain ⟨b, es, h_desc⟩ := h.descend_usable hq
  have h_loc := h.loc_of_designates hp
  have h_deref : Container.deref { c with
      files := Function.update c.files (render (q ++ [n])) (some ⟨ptr.loc ++ [n], a⟩) } ptr
        = some (.dir b es) := (h.deref_eq hp).trans h_desc
  refine ⟨⟨Function.update c.files (render (q ++ [n])) (some ⟨q ++ [n], a⟩),
    c.root.modify (Node.add n (x.at a)) q, c.next⟩, ?_, by simp, ?_⟩
  · unfold Container.place Container.addTo
    rw [h_deref, h_loc]
  have h_files : ∀ r, IsPath r → r ≠ q ++ [n] →
      Function.update c.files (render (q ++ [n])) (some ⟨q ++ [n], a⟩) (render r)
        = c.files (render r) := fun r hr h_ne =>
    Function.update_of_ne (fun h_eq => h_ne (render_inj hr.isName h_path.isName h_eq)) _ _
  -- below the new object there is nothing
  have h_below : ∀ r, q ++ [n] <+: r → r ≠ q ++ [n] →
      (c.root.modify (Node.add n (x.at a)) q).descend r = none := by
    rintro r ⟨s, rfl⟩ h_ne
    rw [descend_add h_desc]
    cases s with
    | nil => simp at h_ne
    | cons m s => exact descend_at_cons x a m s
  have h_here : (c.root.modify (Node.add n (x.at a)) q).descend (q ++ [n]) = some (x.at a) := by
    simpa [Node.descend] using descend_add (n := n) (x := x.at a) h_desc []
  constructor
  case root =>
    -- the root stays a directory, whether it gets the entry itself or something below it does
    obtain ⟨es', h_root⟩ := h.root
    rcases q with _ | ⟨m, q⟩
    · exact ⟨_, by rw [h_root]; rfl⟩
    · exact ⟨_, by rw [h_root]; rfl⟩
  case files_root =>
    change Function.update _ _ _ _ = _
    rw [Function.update_of_ne (render_ne_slash h_path).symm]
    exact h.files_root
  case keys =>
    intro s hs
    by_cases h_eq : s = render (q ++ [n])
    · exact Or.inr ⟨q ++ [n], h_path, h_eq⟩
    · exact h.keys s (by simpa [h_eq] using hs)
  case key =>
    intro r hr
    by_cases h_eq : r = q ++ [n]
    · subst h_eq
      simp [put]
    · rw [put_eq_none_iff h_eq, ← h.key r hr, ← h_files r hr h_eq]
  case loc =>
    intro r ptr' hr hp'
    by_cases h_eq : r = q ++ [n]
    · subst h_eq
      obtain rfl : (⟨q ++ [n], a⟩ : Ptr) = ptr' := by simpa using hp'
      rfl
    · exact h.loc r ptr' hr ((h_files r hr h_eq).symm.trans hp')
  case owned =>
    intro r t hr ht
    change Node.descend (c.root.modify (Node.add n (x.at a)) q) r = some t at ht
    by_cases h_eq : r = q ++ [n]
    · subst h_eq
      obtain rfl := Option.some.inj (h_here.symm.trans ht)
      exact ⟨h_path, ⟨q ++ [n], a⟩, by simp, by simp⟩
    by_cases h_le : q ++ [n] <+: r
    · simp [h_below r h_le h_eq] at ht
    · -- what is elsewhere was there before, up to the entries of `q`
      obtain ⟨t₀, ht₀, h_like⟩ := exists_like_of_descend_add h_desc h_le ht
      obtain ⟨hr', ptr', hp', h_addr⟩ := h.owned r t₀ hr ht₀
      exact ⟨hr', ptr', (h_files r hr' h_eq).trans hp', h_addr.trans h_like.addr.symm⟩
  case shape =>
    intro r hr
    change (Node.descend (c.root.modify (Node.add n (x.at a)) q) r).map Node.kind = _
    by_cases h_eq : r = q ++ [n]
    · subst h_eq
      rw [h_here, put, if_pos rfl, Option.map_some, NewFile.at_kind, Option.join_some]
    by_cases h_le : q ++ [n] <+: r
    · -- below the new object `put` has cleared the statuses
      rw [h_below r h_le h_eq, put, if_neg h_eq, if_pos h_le]
      cases σ r <;> rfl
    · rw [kind_descend_add h_desc h_le, put, if_neg h_eq, if_neg h_le, h.shape r hr]
  case closed =>
    refine closed_put h.closed (hq.imp_right fun hq => ?_)
    simp [hq.2]
  case nodup =>
    intro r t ht
    change Node.descend (c.root.modify (Node.add n (x.at a)) q) r = some t at ht
    by_cases h_eq : r = q ++ [n]
    · subst h_eq
      obtain rfl := Option.some.inj (h_here.symm.trans ht)
      cases x with
      | file f => trivial
      | dir => exact List.nodup_nil
    by_cases h_le : q ++ [n] <+: r
    · simp [h_below r h_le h_eq] at ht
    · obtain ⟨t₀, ht₀, h_like⟩ := exists_like_of_descend_add h_desc h_le ht
      exact h_like.nodup (h.nodup r t₀ ht₀)

/-- An insertion through a pointer to a path that is no directory. -/
theorem place_misuse (h : Inv σ c) {ptr : Ptr} (hq : IsPath q)
    (hp : c.files (render q) = some ptr) (h_bad : σ q ≠ some (some .dir)) (s : Str) (a : ℕ)
    (x : NewFile F) : ∃ e, c.place s ptr n a x = .error e := by
  have h_deref : Container.deref { c with
      files := Function.update c.files s (some ⟨ptr.loc ++ [n], a⟩) } ptr = c.root.descend q :=
    h.deref_eq (Or.inr ⟨hq, hp⟩)
  unfold Container.place Container.addTo
  rw [h_deref]
  rcases h_desc : c.root.descend q with _ | ⟨b, f⟩ | ⟨b, es⟩
  · exact ⟨.destroyed, rfl⟩
  · exact ⟨.notDirectory, rfl⟩
  · exact absurd ((h.dir_iff hq).mpr ⟨b, es, h_desc⟩) h_bad

/-- What the look-up of a parent comes to when all goes well. -/
def ParentFound (σ : Statuses F) (q : List Str) (r : Except Misuse (Container F × Ptr)) : Prop :=
  ∃ c' ptr, r = .ok (c', ptr) ∧ Inv (touch σ q) c' ∧ Usable (touch σ q) q ∧ Designates c' q ptr

/-- The name of the root's parent is no key. -/
theorem files_nil (h : Inv σ c) : c.files [] = none := by
  by_contra h_key
  rcases h.keys [] h_key with h_eq | ⟨q, hq, h_eq⟩
  · simp at h_eq
  · exact hq.ne_nil (render_eq_nil h_eq.symm)

/-- A directory that has been seen. -/
theorem parentFound_of_seen (h : Inv σ c) (hq : IsPath q) {ptr : Ptr}
    (hp : c.files (render q) = some ptr) (h_pass : Passable σ q) :
    ParentFound σ q (.ok (c, ptr)) := by
  have h_seen : σ q ≠ none := fun h_none => by simp [(h.key q hq).mpr h_none] at hp
  have h_touch := touch_of_seen h.closed (Or.inr h_seen)
  refine ⟨c, ptr, rfl, ?_, Or.inr ⟨hq, ?_⟩, Or.inr ⟨hq, hp⟩⟩
  · rwa [h_touch]
  · rw [h_touch]
    exact h_pass.resolve_left h_seen

/-- **`MaybeCreateParentDir`**, where the directories up to `q` are there or can be made. -/
theorem maybeCreateParentDir (h : Inv σ c) {k : ℕ} (hq : q = [] ∨ IsPath q)
    (hk : (render q).length ≤ k) (h_pass : ∀ r, r ≠ [] → r <+: q → Passable σ r) :
    ParentFound σ q (Container.maybeCreateParentDir k c (render q)) := by
  -- on the components: the directory above comes first
  induction q using List.reverseRecOn generalizing c k with
  | nil =>
    have h_root : ParentFound σ [] (.ok (c, rootPtr)) := by
      refine ⟨c, rootPtr, rfl, ?_, Or.inl rfl, Or.inl ⟨rfl, rfl⟩⟩
      rwa [touch_of_seen h.closed (Or.inl rfl)]
    cases k with
    | zero => exact h_root
    | succ k =>
      rw [Container.maybeCreateParentDir, if_pos render_nil]
      exact h_root
  | append_singleton q n ih =>
    have h_path : IsPath (q ++ [n]) := hq.resolve_left (by simp)
    have h_name : IsName n := (isPath_concat.mp h_path).2
    have h_up : q = [] ∨ IsPath q := by
      rcases q with _ | ⟨m, q⟩
      · exact Or.inl rfl
      · exact Or.inr (h_path.of_isPrefix (List.prefix_append _ _) (by simp))
    have h_up_pass : ∀ r, r ≠ [] → r <+: q → Passable σ r := fun r hr hp =>
      h_pass r hr (hp.trans (List.prefix_append _ _))
    have h_lt := length_render_lt q n
    obtain ⟨k, rfl⟩ : ∃ k', k = k' + 1 := ⟨k - 1, by omega⟩
    rw [Container.maybeCreateParentDir,
      if_neg fun h_nil => by simpa using render_eq_nil h_nil]
    rcases hp : c.files (render (q ++ [n])) with _ | ptr
    · -- the directory is made, in the one that is found or made above it
      dsimp only
      rw [dirName_render h_name.2, baseName_render h_name.2]
      have h_unseen := (h.key _ h_path).mp hp
      have h_made : ∀ c₂ dir, Inv (touch σ q) c₂ → Usable (touch σ q) q → Designates c₂ q dir →
          ParentFound σ (q ++ [n]) (c₂.place (render (q ++ [n])) dir n c.next .dir) := by
        intro c₂ dir h₂ h_usable h_dir
        obtain ⟨c', h_place, h_files, h'⟩ := h₂.place h_usable h_dir h_path c.next .dir
        rw [put_touch h.closed h_unseen] at h'
        refine ⟨c', _, h_place, h', Or.inr ⟨h_path, ?_⟩, Or.inr ⟨h_path, h_files⟩⟩
        rw [touch, if_pos ⟨by simp, List.prefix_refl _⟩, h_unseen, Option.none_or]
      rcases hp' : c.files (render q) with _ | ptr
      · obtain ⟨c₂, dir, h_eq, h₂, h_usable, h_dir⟩ :=
          ih (h.setNext (c.next + 1)) (k := k) h_up (by omega) h_up_pass
        simp only [h_eq]
        exact h_made c₂ dir h₂ h_usable h_dir
      · have h_up : IsPath q := h_up.resolve_left fun h_nil => by
          simp [h_nil, h.files_nil] at hp'
        obtain ⟨c₂, dir, h_eq, h₂, h_usable, h_dir⟩ := (h.setNext (c.next + 1)).parentFound_of_seen
          h_up hp' (h_up_pass q h_up.ne_nil (List.prefix_refl q))
        obtain ⟨rfl, rfl⟩ := Prod.mk.inj (Except.ok.inj h_eq)
        exact h_made _ _ h₂ h_usable h_dir
    · -- there is something of this path already
      exact h.parentFound_of_seen h_path hp (h_pass _ (by simp) (List.prefix_refl _))

/-- **`MaybeCreateParentDir`**, where something up to `q` is no directory: either an insertion goes
wrong, or the pointer that is returned leads to no directory. -/
theorem maybeCreateParentDir_misuse (h : Inv σ c) {k : ℕ} (hq : q = [] ∨ IsPath q)
    (hk : (render q).length ≤ k) (hr : r ≠ []) (hrq : r <+: q) (h_bad : ¬ Passable σ r) :
    (∃ e, Container.maybeCreateParentDir k c (render q) = .error e) ∨
      ∃ ptr, Container.maybeCreateParentDir k c (render q) = .ok (c, ptr) ∧ IsPath q ∧
        c.files (render q) = some ptr ∧ σ q ≠ some (some .dir) := by
  induction q using List.reverseRecOn generalizing c k with
  | nil => exact absurd (List.prefix_nil.mp hrq) hr
  | append_singleton q n ih =>
    have h_path : IsPath (q ++ [n]) := hq.resolve_left (by simp)
    have h_name : IsName n := (isPath_concat.mp h_path).2
    have h_lt := length_render_lt q n
    obtain ⟨k, rfl⟩ : ∃ k', k = k' + 1 := ⟨k - 1, by omega⟩
    rw [Container.maybeCreateParentDir,
      if_neg fun h_nil => by simpa using render_eq_nil h_nil]
    rcases hp : c.files (render (q ++ [n])) with _ | ptr
    · have h_unseen := (h.key _ h_path).mp hp
      have hrq' : r <+: q := by
        rcases List.prefix_concat_iff.mp hrq with rfl | h_le
        · exact absurd (Or.inl h_unseen) h_bad
        · exact h_le
      have h_up : IsPath q := h_path.of_isPrefix (List.prefix_append _ _) fun h_nil =>
        hr (List.prefix_nil.mp (h_nil ▸ hrq'))
      refine Or.inl ?_
      dsimp only
      rw [dirName_render h_name.2, baseName_render h_name.2]
      rcases hp' : c.files (render q) with _ | ptr
      · rcases ih (h.setNext (c.next + 1)) (k := k) (Or.inr h_up) (by omega) hrq' with
          ⟨e, he⟩ | ⟨ptr, -, -, hp'', -⟩
        · exact ⟨e, by simp only [he]⟩
        · simp [hp'] at hp''
      · refine (h.setNext (c.next + 1)).place_misuse h_up hp' (fun h_dir => h_bad ?_) _ _ _
        exact Or.inr (h.dir_of_isPrefix hr h_up hrq' h_dir)
    · exact Or.inr ⟨ptr, rfl, h_path, rfl, fun h_dir =>
        h_bad (Or.inr (h.dir_of_isPrefix hr h_path hrq h_dir))⟩

/-- **`add`**, where every ancestor of the path is a directory or can be made. -/
theorem add (h : Inv σ c) (hp : IsPath p) (h_clear : Clear σ p) (x : NewFile F) :
    ∃ c', c.add (render p) x = .ok c' ∧ Inv (extend σ (p, x)) c' := by
  obtain ⟨q, n, rfl⟩ := (List.eq_nil_or_concat' p).resolve_left hp.ne_nil
  have h_name : IsName n := (isPath_concat.mp hp).2
  have h_up : q = [] ∨ IsPath q := by
    rcases q with _ | ⟨m, q⟩
    · exact Or.inl rfl
    · exact Or.inr (hp.of_isPrefix (List.prefix_append _ _) (by simp))
  have h_pass : ∀ r, r ≠ [] → r <+: q → Passable σ r := by
    intro r hr h_pre
    refine h_clear r hr (h_pre.trans (List.prefix_append _ _)) ?_
    rintro rfl
    have h_len := h_pre.length_le
    rw [List.length_append, List.length_singleton] at h_len
    omega
  unfold Container.add
  rw [dirName_render h_name.2, baseName_render h_name.2]
  obtain ⟨c₁, dir, h_eq, h₁, h_usable, h_dir⟩ := h.maybeCreateParentDir h_up (Nat.le_refl _) h_pass
  rw [h_eq]
  obtain ⟨c₂, h_place, -, h₂⟩ := (h₁.setNext (c₁.next + 1)).place h_usable h_dir hp c₁.next x
  dsimp only
  rw [h_place]
  refine ⟨c₂, rfl, ?_⟩
  rwa [extend, List.dropLast_concat]

/-- **`add`** where it goes through something that is no directory, or no longer there. -/
theorem add_misuse (h : Inv σ c) (hp : IsPath p) (h_not : ¬ Clear σ p) (x : NewFile F) :
    ∃ e, c.add (render p) x = .error e := by
  obtain ⟨q, n, rfl⟩ := (List.eq_nil_or_concat' p).resolve_left hp.ne_nil
  have h_name : IsName n := (isPath_concat.mp hp).2
  unfold Clear at h_not
  push Not at h_not
  obtain ⟨r, hr, h_pre, h_ne, h_bad⟩ := h_not
  have h_pre : r <+: q := (List.prefix_concat_iff.mp h_pre).resolve_left h_ne
  have h_up : IsPath q := hp.of_isPrefix (List.prefix_append _ _) fun h_nil =>
    hr (List.prefix_nil.mp (h_nil ▸ h_pre))
  unfold Container.add
  rw [dirName_render h_name.2, baseName_render h_name.2]
  rcases h.maybeCreateParentDir_misuse (Or.inr h_up) (Nat.le_refl _) hr h_pre h_bad with
    ⟨e, he⟩ | ⟨ptr, h_eq, -, h_key, h_dir⟩
  · exact ⟨e, by rw [he]⟩
  · obtain ⟨e, he⟩ := (h.setNext (c.next + 1)).place_misuse (n := n) h_up h_key h_dir
      (render (q ++ [n])) c.next x
    refine ⟨e, ?_⟩
    rw [h_eq]
    dsimp only
    rw [he]

end Inv

/-! ### Runs -/

/-- `P` holds before each `add` of a sequence. -/
def Along (P : Statuses F → List Str → Prop) : Statuses F → List (List Str × NewFile F) → Prop
  | _, [] => True
  | σ, e :: adds => P σ e.1 ∧ Along P (extend σ e) adds

theorem Along.append {P : Statuses F → List Str → Prop} {adds adds' : List (List Str × NewFile F)} :
    Along P σ (adds ++ adds') ↔ Along P σ adds ∧ Along P (adds.foldl extend σ) adds' := by
  induction adds generalizing σ with
  | nil => simp [Along]
  | cons e adds ih => simp [Along, ih, and_assoc]

/-- A run is well defined just if at every `add` all ancestors are directories or not there yet. -/
theorem Inv.addAll (h : Inv σ c) {adds : List (List Str × NewFile F)}
    (h_paths : ∀ e ∈ adds, IsPath e.1) :
    (Along Clear σ adds → ∃ c', c.addAll adds = .ok c' ∧ Inv (adds.foldl extend σ) c') ∧
      (¬ Along Clear σ adds → ∃ e, c.addAll adds = .error e) := by
  induction adds generalizing σ c with
  | nil => exact ⟨fun _ => ⟨c, rfl, h⟩, fun h_not => absurd trivial h_not⟩
  | cons e adds ih =>
    obtain ⟨p, x⟩ := e
    have hp : IsPath p := h_paths _ List.mem_cons_self
    rw [Container.addAll]
    by_cases h_clear : Clear σ p
    · obtain ⟨c', h_add, h'⟩ := h.add hp h_clear x
      rw [h_add]
      obtain ⟨h_ok, h_error⟩ := ih h' fun e he => h_paths e (List.mem_cons_of_mem _ he)
      exact ⟨fun h_along => h_ok h_along.2, fun h_not => h_error fun h_rest =>
        h_not ⟨h_clear, h_rest⟩⟩
    · obtain ⟨e, he⟩ := h.add_misuse hp h_clear x
      rw [he]
      exact ⟨fun h_along => absurd h_along.1 h_clear, fun _ => ⟨e, rfl⟩⟩

/-- **Parents are directories.** Every pointer that is taken for a `Directory` in a sequence of
`add` calls leads to one, just if at each call every ancestor of the path is a directory or not
there yet. -/
theorem addAll_ok_iff (adds : List (List Str × NewFile F)) (h_paths : ∀ e ∈ adds, IsPath e.1) :
    (∃ c, Container.empty.addAll adds = .ok c) ↔ Along Clear (fun _ => none) adds := by
  obtain ⟨h_ok, h_error⟩ := inv_empty.addAll h_paths
  constructor
  · rintro ⟨c, hc⟩
    by_contra h_not
    obtain ⟨e, he⟩ := h_error h_not
    simp [hc] at he
  · intro h_along
    obtain ⟨c, hc, -⟩ := h_ok h_along
    exact ⟨c, hc⟩

/-- A file, and a file below it, as in the targets `foo` and `foo/bar` of a build. -/
def fileAndBelow : List (List Str × NewFile Unit) :=
  [([str "foo"], .file ()), ([str "foo", str "bar"], .file ())]

theorem addAll_ok_iff_fileAndBelow :
    (∃ c, Container.empty.addAll fileAndBelow = .ok c) ↔
      Along Clear (fun _ => none) fileAndBelow :=
  addAll_ok_iff fileAndBelow (by decide)

/-- The second file is inserted into the first. -/
theorem fileAndBelow_misuse : ¬ ∃ c, Container.empty.addAll fileAndBelow = .ok c := by
  rintro ⟨c, hc⟩
  have h_error : (Container.empty.addAll fileAndBelow).isOk = false := by decide +kernel
  rw [hc] at h_error
  simp [Except.isOk, Except.toBool] at h_error

/-! ### Agreement -/

/-- Index and tree agree: a key designates the object reached from the root along its components,
and every object of the tree is designated by its path. -/
structure Agrees (c : Container F) : Prop where
  reached : ∀ s ptr, c.files s = some ptr → s ≠ [slash] →
    ∃ q t, IsPath q ∧ s = render q ∧ c.root.descend q = some t ∧ t.addr = ptr.addr
  designated : ∀ q t, q ≠ [] → c.root.descend q = some t →
    ∃ ptr, c.files (render q) = some ptr ∧ ptr.addr = t.addr

/-- They agree as long as no object is gone. -/
theorem Inv.agrees_iff (h : Inv σ c) : Agrees c ↔ ∀ q, IsPath q → σ q ≠ some none := by
  constructor
  · intro h_agrees q hq h_gone
    have h_key : c.files (render q) ≠ none := fun h_none => by
      simp [(h.key q hq).mp h_none] at h_gone
    obtain ⟨ptr, hp⟩ := Option.ne_none_iff_exists'.mp h_key
    obtain ⟨q', t, hq', h_eq, ht, -⟩ := h_agrees.reached _ ptr hp (render_ne_slash hq)
    obtain rfl := render_inj hq.isName hq'.isName h_eq
    have h_shape := h.shape q hq
    simp [ht, h_gone] at h_shape
  · intro h_live
    refine ⟨fun s ptr hp h_root => ?_, fun q t hq ht => (h.owned q t hq ht).2⟩
    obtain ⟨q, hq, rfl⟩ := (h.keys s (by simp [hp])).resolve_left h_root
    have h_shape := h.shape q hq
    rcases hσ : σ q with _ | _ | x
    · simp [(h.key q hq).mpr hσ] at hp
    · exact absurd hσ (h_live q hq)
    · rw [hσ, Option.join_some, Option.map_eq_some_iff] at h_shape
      obtain ⟨t, ht, -⟩ := h_shape
      obtain ⟨-, ptr', hp', h_addr⟩ := h.owned q t hq.ne_nil ht
      obtain rfl := Option.some.inj (hp.symm.trans hp')
      exact ⟨q, t, hq, rfl, ht, h_addr.symm⟩

/-- Where nothing was gone, an `add` leaves nothing gone just if nothing was below its path. -/
theorem extend_live_iff (h_live : ∀ q, IsPath q → σ q ≠ some none) :
    (∀ q, IsPath q → extend σ (p, x) q ≠ some none) ↔ NothingBelow σ p := by
  have h_touch : ∀ q, p <+: q → q ≠ p → touch σ p.dropLast q = σ q := by
    intro q h_pre h_ne
    refine if_neg fun hq => h_ne ?_
    have h_le : p.length ≤ p.dropLast.length := Nat.le_trans h_pre.length_le hq.2.length_le
    rw [List.length_dropLast] at h_le
    have h_nil : p = [] := List.length_eq_zero_iff.mp (by omega)
    subst h_nil
    exact absurd (List.prefix_nil.mp hq.2) hq.1
  constructor
  · intro h q hq h_pre h_ne
    by_contra h_seen
    obtain ⟨y, hy⟩ := Option.ne_none_iff_exists'.mp h_seen
    refine h q hq ?_
    rw [extend, put, if_neg h_ne, if_pos h_pre, h_touch q h_pre h_ne, hy]
    rfl
  · intro h q hq
    rw [extend, put]
    split_ifs with h_eq h_pre
    · simp
    · rw [h_touch q h_pre h_eq, h q hq h_pre h_eq]
      simp
    · unfold touch
      split
      · rcases hσ : σ q with _ | y
        · simp
        · rw [Option.some_or, ← hσ]
          exact h_live q hq
      · exact h_live q hq

/-- The condition under which an `add` keeps index and tree in agreement. -/
def KeepsAgreement (σ : Statuses F) (p : List Str) : Prop :=
  Clear σ p ∧ NothingBelow σ p

theorem Inv.agrees_along (h : Inv σ c) (h_live : ∀ q, IsPath q → σ q ≠ some none)
    {adds : List (List Str × NewFile F)} (h_paths : ∀ e ∈ adds, IsPath e.1) :
    (∀ before after, adds = before ++ after → ∃ c', c.addAll before = .ok c' ∧ Agrees c') ↔
      Along KeepsAgreement σ adds := by
  induction adds generalizing σ c with
  | nil =>
    refine iff_of_true (fun before after h_split => ?_) trivial
    obtain ⟨rfl, rfl⟩ := List.append_eq_nil_iff.mp h_split.symm
    exact ⟨c, rfl, h.agrees_iff.mpr h_live⟩
  | cons e adds ih =>
    obtain ⟨p, x⟩ := e
    have hp : IsPath p := h_paths _ List.mem_cons_self
    have h_rest : ∀ e ∈ adds, IsPath e.1 := fun e he => h_paths e (List.mem_cons_of_mem _ he)
    constructor
    · intro h_all
      obtain ⟨c₁, h_one, h_agrees⟩ := h_all [(p, x)] adds rfl
      have h_clear : Clear σ p := by
        by_contra h_not
        obtain ⟨e, he⟩ := h.add_misuse hp h_not x
        simp [Container.addAll, he] at h_one
      obtain ⟨c', h_add, h'⟩ := h.add hp h_clear x
      obtain rfl : c' = c₁ := by simpa [Container.addAll, h_add] using h_one
      have h_live' := h'.agrees_iff.mp h_agrees
      refine ⟨⟨h_clear, (extend_live_iff h_live).mp h_live'⟩, (ih h' h_live' h_rest).mp ?_⟩
      intro before after h_split
      obtain ⟨c₂, h_run, h_agrees₂⟩ := h_all ((p, x) :: before) after (by rw [h_split]; rfl)
      rw [Container.addAll, h_add] at h_run
      exact ⟨c₂, h_run, h_agrees₂⟩
    · rintro ⟨⟨h_clear, h_below⟩, h_along⟩ before after h_split
      rcases before with _ | ⟨e, before⟩
      · exact ⟨c, rfl, h.agrees_iff.mpr h_live⟩
      obtain ⟨rfl, h_tail⟩ := List.cons_eq_cons.mp h_split
      obtain ⟨c', h_add, h'⟩ := h.add hp h_clear x
      have h_live' := (extend_live_iff (x := x) h_live).mpr h_below
      rw [Container.addAll, h_add]
      exact (ih h' h_live' h_rest).mpr h_along before after h_tail

/-- **Index and tree.** They agree after every `add` of a sequence, just if at each call every
ancestor of the path is a directory or not there yet and nothing has been added below the path. -/
theorem agrees_along_iff (adds : List (List Str × NewFile F)) (h_paths : ∀ e ∈ adds, IsPath e.1) :
    (∀ before after, adds = before ++ after →
        ∃ c, Container.empty.addAll before = .ok c ∧ Agrees c) ↔
      Along KeepsAgreement (fun _ => none) adds :=
  inv_empty.agrees_along (fun _ _ => by simp) h_paths

/-- A path that is added after a path below it, as in the targets `a/b` and `a` of a build. -/
def aboveAfter : List (List Str × NewFile Unit) :=
  [([str "a", str "b"], .file ()), ([str "a"], .file ())]

theorem agrees_along_iff_aboveAfter :
    (∀ before after, aboveAfter = before ++ after →
        ∃ c, Container.empty.addAll before = .ok c ∧ Agrees c) ↔
      Along KeepsAgreement (fun _ => none) aboveAfter :=
  agrees_along_iff aboveAfter (by decide)

/-- The directory that is replaced takes the file in it along, and `files_` still points there. -/
theorem aboveAfter_not_agrees :
    ¬ ∀ before after, aboveAfter = before ++ after →
      ∃ c, Container.empty.addAll before = .ok c ∧ Agrees c := by
  intro h
  obtain ⟨c, hc, h_agrees⟩ := h aboveAfter [] rfl
  have h_key : ((Container.empty.addAll aboveAfter).toOption.bind fun c =>
      c.files (render [str "a", str "b"])) = some ⟨[str "a", str "b"], 2⟩ := by decide +kernel
  have h_gone : ((Container.empty.addAll aboveAfter).toOption.bind fun c =>
      c.root.descend [str "a", str "b"]).isNone := by decide +kernel
  rw [hc] at h_key h_gone
  obtain ⟨q, t, hq, h_eq, ht, -⟩ := h_agrees.reached _ _ h_key (by decide)
  have h_path : IsPath [str "a", str "b"] := by decide
  obtain rfl := render_inj h_path.isName hq.isName h_eq
  change (c.root.descend [str "a", str "b"]).isNone at h_gone
  simp [ht] at h_gone

end GitlstreeFS.DirectoryContainer
