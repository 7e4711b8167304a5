import GitlstreeFS.Container.Look

/-!
# Parents first

Where the directory of each path has been added before it, there is in the end what has been added, and
nothing else: `ParentsFirst.exists_inv`.
-/

namespace GitlstreeFS.DirectoryContainer

variable {F : Type} {σ : Statuses F} {c : Container F} {q p : List Str} {n : Str} {x : NewFile F}
  {adds : List (List Str × NewFile F)}

/-- The path of each call is new, and its directory has been added. -/
inductive ParentsFirst : List (List Str × NewFile F) → Prop
  | nil : ParentsFirst []
  | snoc {adds : List (List Str × NewFile F)} {q : List Str} {n : Str} {x : NewFile F}
      (h : ParentsFirst adds) (h_path : IsPath (q ++ [n])) (h_new : q ++ [n] ∉ adds.map Prod.fst)
      (h_parent : q = [] ∨ (q, .dir) ∈ adds) : ParentsFirst (adds ++ [(q ++ [n], x)])

/-- What has been added. -/
def added (adds : List (List Str × NewFile F)) : Statuses F :=
  fun q => (adds.lookup q).map some

theorem added_eq_none_iff : added adds q = none ↔ q ∉ adds.map Prod.fst := by
  rw [added, Option.map_eq_none_iff, List.lookup_eq_none_iff]
  constructor
  · intro h h_mem
    obtain ⟨e, he, rfl⟩ := List.mem_map.mp h_mem
    simpa using h e he
  · intro h e he
    have h_ne : q ≠ e.1 := by
      rintro rfl
      exact h (List.mem_map.mpr ⟨e, he, rfl⟩)
    simpa using h_ne

theorem added_of_mem (h_nodup : (adds.map Prod.fst).Nodup) (h : (q, x) ∈ adds) :
    added adds q = some (some x) := by
  rw [added]
  induction adds with
  | nil => cases h
  | cons e adds ih =>
    obtain ⟨p, y⟩ := e
    rw [List.map_cons, List.nodup_cons] at h_nodup
    rw [List.lookup_cons]
    obtain h_eq | h_mem := List.mem_cons.mp h
    · obtain ⟨rfl, rfl⟩ := Prod.mk.inj h_eq
      rw [beq_self_eq_true]
      rfl
    · have h_ne : (q == p) = false := by
        refine beq_false_of_ne fun h_eq => h_nodup.1 ?_
        rw [← h_eq]
        exact List.mem_map.mpr ⟨(q, x), h_mem, rfl⟩
      rw [h_ne]
      exact ih h_nodup.2 h_mem

theorem mem_of_added (h : added adds q = some (some x)) : (q, x) ∈ adds := by
  obtain ⟨y, h_lookup, h_eq⟩ := Option.map_eq_some_iff.mp h
  obtain rfl := Option.some.inj h_eq
  obtain ⟨l, l', h_adds, -⟩ := List.lookup_eq_some_iff.mp h_lookup
  rw [h_adds]
  exact List.mem_append_right l List.mem_cons_self

theorem added_ne_gone : added adds q ≠ some none := by
  rw [added]
  cases adds.lookup q with
  | none => exact fun h => (by cases h)
  | some x => exact fun h => (by cases h)

/-- The order does not matter. -/
theorem added_congr {adds' : List (List Str × NewFile F)}
    (h_nodup' : (adds'.map Prod.fst).Nodup) (h : ∀ e, e ∈ adds ↔ e ∈ adds') : added adds = added adds' := by
  funext q
  cases hq : added adds q with
  | none =>
    have h_not := added_eq_none_iff.mp hq
    refine (added_eq_none_iff.mpr fun h_mem => h_not ?_).symm
    obtain ⟨e, he, rfl⟩ := List.mem_map.mp h_mem
    exact List.mem_map.mpr ⟨e, (h e).mpr he, rfl⟩
  | some o =>
    cases o with
    | none => exact absurd hq added_ne_gone
    | some x => exact (added_of_mem h_nodup' ((h _).mp (mem_of_added hq))).symm

/-- With one more. -/
theorem added_concat (h_new : p ∉ adds.map Prod.fst) (r : List Str) :
    added (adds ++ [(p, x)]) r = if r = p then some (some x) else added adds r := by
  rw [added, List.lookup_append, List.lookup_cons, List.lookup_nil]
  by_cases h_eq : r = p
  · have h_none : adds.lookup p = none := Option.map_eq_none_iff.mp (added_eq_none_iff.mpr h_new)
    rw [if_pos h_eq, h_eq, h_none, Option.none_or, beq_self_eq_true]
    rfl
  · have h_ne : (r == p) = false := beq_false_of_ne h_eq
    rw [if_neg h_eq, h_ne, Option.or_none]
    rfl

/-- Paths of one name each. -/
theorem parentsFirst_names (h_paths : ∀ e ∈ adds, ∃ n, IsName n ∧ e.1 = [n])
    (h_nodup : (adds.map Prod.fst).Nodup) : ParentsFirst adds := by
  induction adds using List.reverseRecOn with
  | nil => exact .nil
  | append_singleton adds e ih =>
    obtain ⟨p, x⟩ := e
    obtain ⟨n, hn, h_eq⟩ := h_paths (p, x) (List.mem_append_right adds List.mem_cons_self)
    obtain rfl : p = [n] := h_eq
    rw [List.map_append, List.map_singleton, List.nodup_append] at h_nodup
    have h_before := ih (fun e he => h_paths e (List.mem_append_left _ he)) h_nodup.1
    have h_path : IsPath ([] ++ [n]) :=
      ⟨List.cons_ne_nil _ _, fun m hm => by rwa [List.mem_singleton.mp hm]⟩
    refine .snoc h_before h_path (fun h_mem => ?_) (.inl rfl)
    exact h_nodup.2.2 _ h_mem _ (List.mem_singleton.mpr rfl) rfl

theorem ParentsFirst.nodup (h : ParentsFirst adds) : (adds.map Prod.fst).Nodup := by
  induction h with
  | nil => exact List.nodup_nil
  | @snoc adds q n x _ _ h_new _ ih =>
    rw [List.map_append, List.map_singleton, List.nodup_append]
    refine ⟨ih, List.nodup_singleton _, ?_⟩
    rintro a ha b hb rfl
    rw [List.mem_singleton.mp hb] at ha
    exact h_new ha

/-- All directories above a path have been added. -/
theorem ParentsFirst.closed (h : ParentsFirst adds) (hq : q ≠ []) (h_pre : q <+: p)
    (hp : p ∈ adds.map Prod.fst) : q ∈ adds.map Prod.fst ∧ (q ≠ p → (q, .dir) ∈ adds) := by
  induction h generalizing p with
  | nil => cases hp
  | @snoc adds r n x _ _ _ h_parent ih =>
    rw [List.map_append, List.mem_append, List.map_singleton, List.mem_singleton] at hp
    obtain hp | rfl := hp
    · obtain ⟨h_mem, h_dir⟩ := ih h_pre hp
      exact ⟨by rw [List.map_append]; exact List.mem_append_left _ h_mem,
        fun h_ne => List.mem_append_left _ (h_dir h_ne)⟩
    · obtain rfl | h_pre := List.prefix_concat_iff.mp h_pre
      · exact ⟨by simp, fun h_ne => absurd rfl h_ne⟩
      · have h_r : (r, .dir) ∈ adds := by
          refine h_parent.resolve_left ?_
          rintro rfl
          exact hq (List.prefix_nil.mp h_pre)
        have h_mem : r ∈ adds.map Prod.fst := List.mem_map.mpr ⟨_, h_r, rfl⟩
        obtain ⟨h_q, h_dir⟩ := ih h_pre h_mem
        refine ⟨by rw [List.map_append]; exact List.mem_append_left _ h_q, fun _ => ?_⟩
        refine List.mem_append_left _ ?_
        by_cases h_eq : q = r
        · rwa [h_eq]
        · exact h_dir h_eq

/-- One more call. -/
theorem ParentsFirst.extend (h : ParentsFirst adds) (h_new : q ++ [n] ∉ adds.map Prod.fst)
    (h_parent : q = [] ∨ (q, .dir) ∈ adds) (h_closed : Closed (added adds)) :
    DirectoryContainer.extend (added adds) (q ++ [n], x) = added (adds ++ [(q ++ [n], x)]) := by
  have h_touch : touch (added adds) q = added adds := by
    refine touch_of_seen h_closed (h_parent.imp_right fun h_mem => ?_)
    rw [added_of_mem h.nodup h_mem]
    exact Option.some_ne_none _
  rw [DirectoryContainer.extend, List.dropLast_concat, h_touch]
  funext r
  rw [put, added_concat h_new]
  by_cases h_eq : r = q ++ [n]
  · rw [if_pos h_eq, if_pos h_eq]
  · rw [if_neg h_eq, if_neg h_eq]
    by_cases h_pre : q ++ [n] <+: r
    · -- nothing can be below a path that is new
      have h_r : r ∉ adds.map Prod.fst := fun h_mem => h_new (h.closed (by simp) h_pre h_mem).1
      rw [if_pos h_pre, added_eq_none_iff.mpr h_r]
      rfl
    · rw [if_neg h_pre]

/-- **There is what has been added.** -/
theorem ParentsFirst.exists_inv (h : ParentsFirst adds) :
    ∃ c, Container.empty.addAll adds = .ok c ∧ Inv (added adds) c := by
  induction h with
  | nil => exact ⟨_, rfl, inv_empty⟩
  | @snoc adds q n x h h_path h_new h_parent ih =>
    obtain ⟨c, h_c, h_inv⟩ := ih
    have h_clear : Clear (added adds) (q ++ [n]) := by
      intro r hr h_pre h_ne
      have h_pre : r <+: q := (List.prefix_concat_iff.mp h_pre).resolve_left h_ne
      have h_q : (q, .dir) ∈ adds := by
        refine h_parent.resolve_left ?_
        rintro rfl
        exact hr (List.prefix_nil.mp h_pre)
      have h_r : (r, .dir) ∈ adds := by
        by_cases h_eq : r = q
        · rwa [h_eq]
        · exact (h.closed hr h_pre (List.mem_map.mpr ⟨_, h_q, rfl⟩)).2 h_eq
      exact .inr (added_of_mem h.nodup h_r)
    obtain ⟨c', h_add, h_inv'⟩ := h_inv.add h_path h_clear x
    refine ⟨c', ?_, ?_⟩
    · rw [Container.addAll_append, h_c]
      exact (Container.addAll_singleton c _ x).trans h_add
    · rwa [h.extend h_new h_parent h_inv.closed] at h_inv'

end GitlstreeFS.DirectoryContainer
