import GitlstreeFS.Text
import Mathlib.Data.List.Nodup

/-!
# Git trees

The tree of a commit, as Git has it: blobs, subtrees and the commits of submodules, under names that are
different within each tree. `At` says what there is at a path.
-/

namespace GitlstreeFS.GitTree

/-- What a tree has under a name. A symlink is a blob too, which its mode says. -/
inductive Entry where
  | blob (mode : ℕ) (sha : Str) (size : ℕ)
  | commit (sha : Str)
  | tree (sha : Str) (entries : List (Str × Entry))

/-- The entry at a path from a tree on. -/
inductive At : List (Str × Entry) → List Str → Entry → Prop
  | here {es : List (Str × Entry)} {n : Str} {e : Entry} (h : (n, e) ∈ es) : At es [n] e
  | under {es es' : List (Str × Entry)} {n sha : Str} {q : List Str} {e : Entry}
      (h : (n, .tree sha es') ∈ es) (h_at : At es' q e) : At es (n :: q) e

/-- There are names, and they are different. -/
structure Named (es : List (Str × Entry)) : Prop where
  isName : ∀ x ∈ es, IsName x.1
  nodup : (es.map Prod.fst).Nodup

/-- So it is in a tree and in all its subtrees. -/
structure WellFormed (es : List (Str × Entry)) : Prop where
  root : Named es
  subtrees : ∀ q sha es', At es q (.tree sha es') → Named es'

/-- A blob or a commit. -/
def Entry.IsLeaf : Entry → Prop
  | .tree _ _ => False
  | _ => True

variable {es es' : List (Str × Entry)} {q p r : List Str} {n sha : Str} {e e' : Entry}

theorem WellFormed.of_mem (h : WellFormed es) (h_mem : (n, .tree sha es') ∈ es) : WellFormed es' :=
  ⟨h.subtrees [n] sha es' (.here h_mem), fun q sha' es'' h_at =>
    h.subtrees (n :: q) sha' es'' (.under h_mem h_at)⟩

theorem sizeOf_lt_of_mem (h : (n, .tree sha es') ∈ es) : sizeOf es' < sizeOf es := by
  have h_lt := List.sizeOf_lt_of_mem h
  rw [Prod.mk.sizeOf_spec, Entry.tree.sizeOf_spec] at h_lt
  omega

theorem At.ne_nil (h : At es q e) : q ≠ [] := by
  cases h with
  | here h => exact List.cons_ne_nil _ _
  | under h h_at => exact List.cons_ne_nil _ _

/-- Where something is, there is a path. -/
theorem At.isPath (h : At es q e) (h_wf : WellFormed es) : IsPath q := by
  refine ⟨h.ne_nil, ?_⟩
  induction h with
  | here h =>
    intro n hn
    rw [List.mem_singleton.mp hn]
    exact h_wf.root.isName _ h
  | under h _ ih =>
    intro n hn
    obtain rfl | hn := List.mem_cons.mp hn
    · exact h_wf.root.isName _ h
    · exact ih (h_wf.of_mem h) n hn

/-- One name, one entry. -/
theorem Named.unique (h : Named es) (h₁ : (n, e) ∈ es) (h₂ : (n, e') ∈ es) : e = e' := by
  have h_inj := List.inj_on_of_nodup_map h.nodup h₁ h₂ rfl
  exact (Prod.mk.inj h_inj).2

/-- **At a path there is one entry.** -/
theorem At.unique (h_wf : WellFormed es) (h₁ : At es q e) (h₂ : At es q e') : e = e' := by
  induction h₁ with
  | here h =>
    cases h₂ with
    | here h' => exact h_wf.root.unique h h'
    | under _ h_at => exact absurd rfl h_at.ne_nil
  | under h h_at ih =>
    cases h₂ with
    | here _ => exact absurd rfl h_at.ne_nil
    | under h' h_at' =>
      obtain ⟨-, rfl⟩ := Entry.tree.inj (h_wf.root.unique h h')
      exact ih (h_wf.of_mem h) h_at'

/-- **Above an entry there are trees.** -/
theorem At.above (h : At es (q ++ r) e) (hq : q ≠ []) (hr : r ≠ []) :
    ∃ sha es', At es q (.tree sha es') ∧ At es' r e := by
  generalize h_eq : q ++ r = p at h
  induction h generalizing q with
  | here h =>
    obtain ⟨m, q, rfl⟩ := List.exists_cons_of_ne_nil hq
    obtain ⟨-, h_nil⟩ := List.cons.inj h_eq
    exact absurd (List.append_eq_nil_iff.mp h_nil).2 hr
  | @under es es' n sha p e h h_at ih =>
    obtain ⟨m, q, rfl⟩ := List.exists_cons_of_ne_nil hq
    obtain ⟨rfl, h_rest⟩ := List.cons.inj h_eq
    by_cases h_nil : q = []
    · subst h_nil
      obtain rfl : r = p := h_rest
      exact ⟨sha, es', .here h, h_at⟩
    · obtain ⟨sha', es'', h_tree, h_below⟩ := ih h_nil h_rest
      exact ⟨sha', es'', .under h h_tree, h_below⟩

/-- So nothing is below a leaf. -/
theorem At.eq_of_leaf (h_wf : WellFormed es) (h : At es p e) (h_leaf : e.IsLeaf) (h' : At es q e')
    (h_pre : p <+: q) : p = q := by
  by_contra h_ne
  obtain ⟨r, rfl⟩ := h_pre
  have hr : r ≠ [] := by
    rintro rfl
    exact h_ne (List.append_nil p).symm
  obtain ⟨sha, es', h_tree, -⟩ := h'.above h.ne_nil hr
  obtain rfl := h.unique h_wf h_tree
  exact h_leaf

/-! ### Listings -/

/-- The entries of a tree and its subtrees, with their paths. A tree comes before what is below it. -/
structure Listing (es : List (Str × Entry)) (nodes : List (List Str × Entry)) : Prop where
  mem_iff : ∀ q e, (q, e) ∈ nodes ↔ At es q e
  order : nodes.Pairwise fun x y => ¬ y.1 <+: x.1

/-- The entries of a tree alone. -/
def children (es : List (Str × Entry)) : List (List Str × Entry) :=
  es.map fun x => ([x.1], x.2)

theorem mem_children : (q, e) ∈ children es ↔ ∃ n, (n, e) ∈ es ∧ q = [n] := by
  constructor
  · intro h
    obtain ⟨⟨n, e'⟩, h_mem, h_eq⟩ := List.mem_map.mp h
    obtain ⟨rfl, rfl⟩ := Prod.mk.inj h_eq
    exact ⟨n, h_mem, rfl⟩
  · rintro ⟨n, h_mem, rfl⟩
    exact List.mem_map.mpr ⟨(n, e), h_mem, rfl⟩

theorem at_of_mem_children (h : (q, e) ∈ children es) : At es q e := by
  obtain ⟨n, h_mem, rfl⟩ := mem_children.mp h
  exact .here h_mem

/-- What is at a path of one name. -/
theorem At.mem_children (h : At es q e) (h_length : q.length < 2) : (q, e) ∈ children es := by
  cases h with
  | here h => exact GitTree.mem_children.mpr ⟨_, h, rfl⟩
  | under h h_at =>
    have h_pos := List.length_pos_iff.mpr h_at.ne_nil
    rw [List.length_cons] at h_length
    omega

theorem Named.nodup_children (h : Named es) : ((children es).map Prod.fst).Nodup := by
  have h_eq : (children es).map Prod.fst = (es.map Prod.fst).map fun n => [n] := by
    rw [children, List.map_map, List.map_map]
    rfl
  rw [h_eq]
  exact h.nodup.map fun a b h_ab => (List.cons.inj h_ab).1

theorem Listing.nodup {nodes : List (List Str × Entry)} (h : Listing es nodes) :
    (nodes.map Prod.fst).Nodup := by
  refine List.pairwise_map.mpr (h.order.imp fun h_not h_eq => ?_)
  exact h_not (h_eq ▸ List.prefix_refl _)

/-- The tree that a listed entry is in has been listed before. -/
theorem Listing.parent {before behind : List (List Str × Entry)}
    (h : Listing es (before ++ (q ++ [n], e) :: behind)) (hq : q ≠ []) :
    ∃ sha es', (q, .tree sha es') ∈ before := by
  have h_at := (h.mem_iff _ _).mp (List.mem_append_right before List.mem_cons_self)
  obtain ⟨sha, es', h_tree, -⟩ := h_at.above hq (List.cons_ne_nil _ _)
  obtain h_mem | h_mem := List.mem_append.mp ((h.mem_iff _ _).mpr h_tree)
  · exact ⟨sha, es', h_mem⟩
  · obtain h_eq | h_mem := List.mem_cons.mp h_mem
    · have h_len := congrArg (fun x => x.1.length) h_eq
      simp at h_len
    · -- it would come behind what is below it
      have h_behind := (List.pairwise_cons.mp (List.pairwise_append.mp h.order).2.1).1 _ h_mem
      exact absurd (List.prefix_append q [n]) h_behind

/-- The entries of a tree and its subtrees, each tree right before what is below it. -/
def preorder : List (Str × Entry) → List (List Str × Entry)
  | [] => []
  | (n, .tree sha es') :: es => ([n], .tree sha es') :: (preorder es').map (fun x => (n :: x.1, x.2)) ++ preorder es
  | (n, e) :: es => ([n], e) :: preorder es
  termination_by es => sizeOf es

/-- What is at a path is the first entry, or below it, or in the rest. -/
theorem at_cons_iff : At ((n, e) :: es) q e' ↔
    (q = [n] ∧ e' = e) ∨ (∃ sha es' r, e = .tree sha es' ∧ q = n :: r ∧ At es' r e') ∨ At es q e' := by
  constructor
  · intro h
    cases h with
    | here h =>
      obtain h_eq | h := List.mem_cons.mp h
      · obtain ⟨rfl, rfl⟩ := Prod.mk.inj h_eq
        exact .inl ⟨rfl, rfl⟩
      · exact .inr (.inr (.here h))
    | under h h_at =>
      obtain h_eq | h := List.mem_cons.mp h
      · obtain ⟨rfl, rfl⟩ := Prod.mk.inj h_eq
        exact .inr (.inl ⟨_, _, _, rfl, rfl, h_at⟩)
      · exact .inr (.inr (.under h h_at))
  · rintro (⟨rfl, rfl⟩ | ⟨sha, es', r, rfl, rfl, h_at⟩ | h)
    · exact .here List.mem_cons_self
    · exact .under List.mem_cons_self h_at
    · cases h with
      | here h => exact .here (List.mem_cons_of_mem _ h)
      | under h h_at => exact .under (List.mem_cons_of_mem _ h) h_at

theorem mem_preorder : (q, e) ∈ preorder es ↔ At es q e := by
  induction es using preorder.induct generalizing q with
  | case1 =>
    rw [preorder]
    exact iff_of_false List.not_mem_nil fun h => by cases h with
      | here h => exact List.not_mem_nil h
      | under h _ => exact List.not_mem_nil h
  | case2 n sha es' es ih_below ih =>
    rw [preorder, at_cons_iff, List.cons_append, List.mem_cons, List.mem_append, ih, Prod.mk.injEq]
    refine or_congr_right (or_congr_left ?_)
    constructor
    · intro h
      obtain ⟨⟨r, e'⟩, h_mem, h_eq⟩ := List.mem_map.mp h
      obtain ⟨rfl, rfl⟩ := Prod.mk.inj h_eq
      exact ⟨sha, es', r, rfl, rfl, ih_below.mp h_mem⟩
    · rintro ⟨sha', es'', r, h_eq, rfl, h_at⟩
      obtain ⟨rfl, rfl⟩ := Entry.tree.inj h_eq
      exact List.mem_map.mpr ⟨(r, e), ih_below.mpr h_at, rfl⟩
  | case3 n e' es h_leaf ih =>
    rw [preorder, at_cons_iff, List.mem_cons, ih, Prod.mk.injEq]
    · refine or_congr_right (or_iff_right ?_).symm
      rintro ⟨sha, es', r, h_eq, -, -⟩
      exact h_leaf sha es' h_eq
    · exact h_leaf

theorem WellFormed.tail {x : Str × Entry} (h : WellFormed (x :: es)) : WellFormed es where
  root := ⟨fun y hy => h.root.isName y (List.mem_cons_of_mem _ hy), (List.nodup_cons.mp h.root.nodup).2⟩
  subtrees q sha es' h_at := h.subtrees q sha es' (at_cons_iff.mpr (.inr (.inr h_at)))

/-- What is in the rest has another first name. -/
theorem WellFormed.head_ne (h : WellFormed ((n, e) :: es)) (h_at : At es p e') : ¬ p <+: n :: q := by
  have h_fresh := (List.nodup_cons.mp h.root.nodup).1
  intro h_pre
  cases h_at with
  | here h_mem =>
    obtain rfl := (List.cons_prefix_cons.mp h_pre).1
    exact h_fresh (List.mem_map.mpr ⟨_, h_mem, rfl⟩)
  | under h_mem _ =>
    obtain rfl := (List.cons_prefix_cons.mp h_pre).1
    exact h_fresh (List.mem_map.mpr ⟨_, h_mem, rfl⟩)

theorem pairwise_preorder (h : WellFormed es) : (preorder es).Pairwise fun x y => ¬ y.1 <+: x.1 := by
  induction es using preorder.induct with
  | case1 =>
    rw [preorder]
    exact List.Pairwise.nil
  | case2 n sha es' es ih_below ih =>
    rw [preorder, List.cons_append, List.pairwise_cons, List.pairwise_append, List.pairwise_map]
    refine ⟨fun y hy h_pre => ?_, ?_, ih h.tail, fun x hx y hy => ?_⟩
    · -- what comes behind the tree is longer, or has another first name
      obtain hy | hy := List.mem_append.mp hy
      · obtain ⟨z, hz, rfl⟩ := List.mem_map.mp hy
        have h_nil := List.prefix_nil.mp (List.cons_prefix_cons.mp h_pre).2
        exact (mem_preorder.mp hz).ne_nil h_nil
      · exact h.head_ne (mem_preorder.mp hy) h_pre
    · refine (ih_below (h.of_mem List.mem_cons_self)).imp fun h_not h_pre => ?_
      exact h_not (List.cons_prefix_cons.mp h_pre).2
    · obtain ⟨z, -, rfl⟩ := List.mem_map.mp hx
      exact h.head_ne (mem_preorder.mp hy)
  | case3 n e es h_leaf ih =>
    rw [preorder, List.pairwise_cons]
    · exact ⟨fun y hy => h.head_ne (mem_preorder.mp hy), ih h.tail⟩
    · exact h_leaf

theorem listing_preorder (h : WellFormed es) : Listing es (preorder es) :=
  ⟨fun _ _ => mem_preorder, pairwise_preorder h⟩

end GitlstreeFS.GitTree
