import GitlstreeFS.Githubfs.Recursion
import GitlstreeFS.Gitlstree.Listing

/-!
# The same tree

`gitlstree` loads a tree from a listing, which has a line for each blob and each commit. `githubfs` loads
it from an answer, which lists the trees too. `same_iff` says when both containers show the same.

They differ in the submodules, which `githubfs` leaves out, and in the directories in which there is
nothing else.
-/

namespace GitlstreeFS.SameTree

open DirectoryContainer

/-! ### What is compared -/

/-- The paths that the file systems have for themselves. -/
def exempt : List (List Str) :=
  [[str ".status"], [str ".git"], [str ".git", str "HEAD"]]

/-- Both are directories, or both are files with the same mode and the same size. -/
inductive Alike : NewFile Gitlstree.File → NewFile Githubfs.File → Prop
  | dir : Alike .dir .dir
  | element {e : Gitlstree.FileElement} {e' : Githubfs.FileElement}
      (h_mode : e.getattr.mode = e'.getattr.mode) (h_size : e.getattr.size = e'.getattr.size) :
      Alike (.file (.element e)) (.file (.element e'))

/-- Apart from these paths, the containers show the same. -/
def Shows (c : Container Gitlstree.File) (c' : Container Githubfs.File) : Prop :=
  ∀ s, (∀ q ∈ exempt, s ≠ render q) →
    c.look s = none ∧ c'.look s = none ∨
      ∃ x y, c.look s = some (some x) ∧ c'.look s = some (some y) ∧ Alike x y

/-- Both file systems load the tree, and show the same. -/
def Same (runGitCommand : List Str → Str × ℤ) (ref : Str) (httpFetch : Str → Str)
    (githubApiPrefix treeHash : Str) : Prop :=
  ∀ adds, Githubfs.Loads httpFetch githubApiPrefix [] treeHash true adds →
    ∃ c c', Gitlstree.loadDirectory runGitCommand ref Container.empty = .ok (true, c) ∧
      Githubfs.gitTree adds = .ok c' ∧ Shows c c'

/-! ### The tree and its listings -/

/-- The trees that are compared. -/
structure Domain (root : List (Str × GitTree.Entry)) : Prop where
  wellFormed : GitTree.WellFormed root
  /-- No spaces, tabs, quotes and backslashes. -/
  names : ∀ q e, GitTree.At root q e → ∀ n ∈ q, ∀ b ∈ n, b ≠ 0x20 ∧ b ≠ 0x09 ∧ b ≠ 0x22 ∧ b ≠ 0x5c
  blob : ∀ q mode sha size, GitTree.At root q (.blob mode sha size) →
    mode ≠ sIFDIR ∧ mode < 0x80000000 ∧ size ≤ 2 ^ 24

/-- The mode, the hash and the size that are printed. -/
def leafData : GitTree.Entry → ℕ × Str × Option ℕ
  | .blob mode sha size => (mode, sha, some size)
  | .commit sha => (0xe000, sha, none)
  | .tree sha _ => (0x4000, sha, none)

/-- How an entry is printed: its path stands there as it is, or in quotes, which add no spaces. -/
structure Printed (x : List Str × GitTree.Entry) (e : Gitlstree.Entry) : Prop where
  path : e.path = x.1 ∨ ∃ n r, e.path = (0x22 :: n) :: r
  spaces : ∀ n ∈ e.path, space ∉ n
  data : (e.mode, e.sha, e.size) = leafData x.2

/-- All blobs and commits of a tree. -/
structure Leaves (root : List (Str × GitTree.Entry)) (leaves : List (List Str × GitTree.Entry)) : Prop where
  mem_iff : ∀ q e, (q, e) ∈ leaves ↔ GitTree.At root q e ∧ e.IsLeaf
  nodup : (leaves.map Prod.fst).Nodup

/-- What the two loaders agree about, where `seen` are the blobs and commits that `gitlstree` has read. -/
structure Agreeable (root : List (Str × GitTree.Entry)) (seen : List (List Str × GitTree.Entry)) : Prop where
  /-- No blob is missing. -/
  blobs : ∀ q mode sha size, GitTree.At root q (.blob mode sha size) → q ∉ exempt →
    (q, .blob mode sha size) ∈ seen
  /-- There are no submodules. -/
  commits : ∀ q sha, (q, .commit sha) ∈ seen → q ∈ Gitlstree.ownPaths
  /-- There is something in each directory. -/
  trees : ∀ q sha es, GitTree.At root q (.tree sha es) → q ∉ exempt → ∃ x ∈ seen, q <+: x.1
  /-- Nothing is above or below the files that the file systems have for themselves. -/
  own : ∀ x ∈ seen, ∀ o ∈ Gitlstree.ownPaths, x.1 ≠ o → ¬ x.1 <+: o ∧ ¬ o <+: x.1

/-! ### The files of their own -/

variable {σ : Statuses Gitlstree.File} {q p : List Str} {hash : Str} {root : List (Str × GitTree.Entry)}
  {leaves seen : List (List Str × GitTree.Entry)} {entries read : List Gitlstree.Entry}
  {c : Container Gitlstree.File} {c' : Container Githubfs.File}

theorem mem_exempt_of_isPrefix {o : List Str} (ho : o ∈ Gitlstree.ownPaths) (hq : q ≠ []) (h : q <+: o) :
    q ∈ exempt := by
  have h_all : ∀ o ∈ Gitlstree.ownPaths, ∀ k ≤ 2, o.take k = [] ∨ o.take k ∈ exempt := by decide
  have h_length : ∀ o ∈ Gitlstree.ownPaths, o.length ≤ 2 := by decide
  have h_take := h_all o ho q.length (h.length_le.trans (h_length o ho))
  rw [← List.prefix_iff_eq_take.mp h] at h_take
  exact h_take.resolve_left hq

theorem exempt_isPath : ∀ q ∈ exempt, IsPath q := by decide

theorem foldl_ownAdds (σ : Statuses Gitlstree.File) (hash : Str) :
    (Gitlstree.ownAdds hash).foldl extend σ =
      extend (extend σ ([str ".status"], .file .status)) ([str ".git", str "HEAD"], .file (.head hash)) :=
  rfl

/-- They change nothing else, as long as nothing is below them. -/
theorem own_other (hq : q ∉ exempt) (h_below : ∀ o ∈ Gitlstree.ownPaths, o <+: q → σ q = none) :
    (Gitlstree.ownAdds hash).foldl extend σ q = σ q := by
  have h_status : q ≠ [str ".status"] := by
    rintro rfl
    exact hq (by decide)
  have h_head : q ≠ [str ".git", str "HEAD"] := by
    rintro rfl
    exact hq (by decide)
  have h_first : extend σ ([str ".status"], .file .status) q = σ q := by
    refine extend_other h_status (h_below _ (.head _)) ?_
    rw [or_iff_not_imp_left]
    exact fun h_ne h_pre => h_ne (List.prefix_nil.mp h_pre)
  rw [foldl_ownAdds, extend_other h_head _ _, h_first]
  · rw [h_first]
    exact h_below _ (.tail _ (.head _))
  · rw [or_iff_not_imp_left]
    intro h_ne h_pre
    exact hq (mem_exempt_of_isPrefix (.tail _ (.head _)) h_ne
      (h_pre.trans (List.prefix_append [str ".git"] [str "HEAD"])))

/-- What is below them is gone. -/
theorem own_gone {o : List Str} (ho : o ∈ Gitlstree.ownPaths) (h_pre : o <+: q) (h_ne : o ≠ q)
    (h_seen : σ q ≠ none) : (Gitlstree.ownAdds hash).foldl extend σ q = some none := by
  rw [foldl_ownAdds]
  obtain rfl | rfl : o = _ ∨ o = _ := by simpa [Gitlstree.ownPaths] using ho
  · -- the second file is somewhere else
    obtain ⟨r, rfl⟩ := h_pre
    have h_apart : str ".git" ≠ str ".status" := by decide
    rw [extend_other, extend_below (by decide) (List.prefix_append _ r) (Ne.symm h_ne) h_seen]
    · exact fun h_eq => h_apart (List.cons.inj h_eq).1.symm
    · exact fun h => absurd (List.cons_prefix_cons.mp h).1 h_apart
    · exact .inr fun h => h_apart (List.cons_prefix_cons.mp h).1.symm
  · exact extend_below (by decide) h_pre (Ne.symm h_ne) (extend_ne_none h_seen)

theorem eq_of_isPrefix_name {n : Str} (hq : q ≠ []) (h : q <+: [n]) : q = [n] :=
  h.eq_of_length_le (List.length_pos_iff.mpr hq)

/-- They can be added just if `.git` is no file. -/
theorem own_along : Along Clear σ (Gitlstree.ownAdds hash) ↔ Passable σ [str ".git"] := by
  have h_git : extend σ ([str ".status"], .file .status) [str ".git"] = σ [str ".git"] :=
    extend_other (by decide) (fun h => absurd h (by decide)) (.inr (by decide))
  have h_first : Clear σ [str ".status"] := by
    intro q hq h_pre h_ne
    exact absurd (eq_of_isPrefix_name hq h_pre) h_ne
  have h_second {τ : Statuses Gitlstree.File} : Clear τ [str ".git", str "HEAD"] ↔ Passable τ [str ".git"] := by
    constructor
    · intro h
      exact h _ (by decide) (by decide) (by decide)
    · intro h q hq h_pre h_ne
      have h_pre : q <+: [str ".git"] ++ [str "HEAD"] := h_pre
      obtain h_eq | h_pre := List.prefix_concat_iff.mp h_pre
      · exact absurd h_eq h_ne
      · rwa [eq_of_isPrefix_name hq h_pre]
  have h_along : Along Clear σ (Gitlstree.ownAdds hash) ↔ Clear σ [str ".status"] ∧
      Clear (extend σ ([str ".status"], .file .status)) [str ".git", str "HEAD"] ∧ True :=
    Iff.rfl
  rw [h_along, h_second, Passable, h_git, and_true]
  exact and_iff_right h_first

/-! ### `githubfs` -/

section Githubfs

variable {httpFetch : Str → Str} {githubApiPrefix treeHash : Str}
  {nodes : List (List Str × GitTree.Entry)} {adds : List (List Str × NewFile Githubfs.File)}

/-- The calls of `add`, that for `/.status` included. -/
theorem gitTree_toPath : Githubfs.gitTree (adds.map Githubfs.toPath)
    = Container.empty.addAll (adds ++ [([str ".status"], .file .status)]) := by
  have h_status : [(str "/.status", NewFile.file Githubfs.File.status)]
      = [([str ".status"], NewFile.file Githubfs.File.status)].map Githubfs.toPath := by
    have h_render : render [str ".status"] = str "/.status" := by decide
    rw [List.map_singleton, Githubfs.toPath, h_render]
  rw [Githubfs.gitTree, h_status, ← List.map_append, Githubfs.addPaths_toPath]

/-- The statuses that the recursive answer leaves. -/
def remoteStatuses (nodes : List (List Str × GitTree.Entry)) : Statuses Githubfs.File :=
  extend (added (nodes.filterMap Githubfs.nodeAdd)) ([str ".status"], .file .status)

theorem exists_gitTree (h : ParentsFirst adds) :
    ∃ c', Githubfs.gitTree (adds.map Githubfs.toPath) = .ok c' ∧
      Inv (extend (added adds) ([str ".status"], .file .status)) c' := by
  obtain ⟨c, h_c, h_inv⟩ := h.exists_inv
  have h_clear : Clear (added adds) [str ".status"] := by
    intro q hq h_pre h_ne
    exact absurd (eq_of_isPrefix_name hq h_pre) h_ne
  obtain ⟨c', h_add, h_inv'⟩ := h_inv.add (by decide) h_clear (.file .status)
  refine ⟨c', ?_, h_inv'⟩
  rw [gitTree_toPath, Container.addAll_append_eq_ok_iff]
  refine ⟨c, h_c, ?_⟩
  rw [Container.addAll, h_add]
  rfl

/-- Everything else is an entry of the tree. -/
theorem remoteStatuses_eq (hq : q ≠ [str ".status"])
    (h_below : [str ".status"] <+: q → added (nodes.filterMap Githubfs.nodeAdd) q = none) :
    remoteStatuses nodes q = added (nodes.filterMap Githubfs.nodeAdd) q := by
  refine extend_other hq h_below ?_
  rw [or_iff_not_imp_left]
  exact fun h_ne h_pre => h_ne (List.prefix_nil.mp h_pre)

theorem added_of_at {e : GitTree.Entry} {x : NewFile Githubfs.File}
    (h_listing : GitTree.Listing root nodes) (h_at : GitTree.At root q e)
    (h_add : Githubfs.nodeAdd (q, e) = some (q, x)) :
    added (nodes.filterMap Githubfs.nodeAdd) q = some (some x) :=
  added_of_mem ((Githubfs.fst_filterMap_nodeAdd nodes).nodup h_listing.nodup)
    (Githubfs.mem_filterMap_nodeAdd.mpr ⟨e, (h_listing.mem_iff _ _).mpr h_at, h_add⟩)

theorem exists_of_added (h_listing : GitTree.Listing root nodes)
    (h : added (nodes.filterMap Githubfs.nodeAdd) q ≠ none) :
    ∃ e x, GitTree.At root q e ∧ Githubfs.nodeAdd (q, e) = some (q, x) := by
  rw [ne_eq, added_eq_none_iff, not_not] at h
  obtain ⟨⟨p, x⟩, h_mem, rfl⟩ := List.mem_map.mp h
  obtain ⟨e, h_node, h_add⟩ := Githubfs.mem_filterMap_nodeAdd.mp h_mem
  exact ⟨e, x, (h_listing.mem_iff _ _).mp h_node, h_add⟩

theorem at_of_remoteStatuses (h_listing : GitTree.Listing root nodes) (hq : q ≠ [str ".status"])
    (h : remoteStatuses nodes q ≠ none) :
    ∃ e x, GitTree.At root q e ∧ Githubfs.nodeAdd (q, e) = some (q, x) := by
  rw [remoteStatuses, extend, ne_eq, put_eq_none_iff hq] at h
  change touch _ [] q ≠ none at h
  rw [touch_nil] at h
  exact exists_of_added h_listing h

theorem remoteStatuses_of_at {e : GitTree.Entry} {x : NewFile Githubfs.File}
    (h_listing : GitTree.Listing root nodes) (h_at : GitTree.At root q e)
    (h_add : Githubfs.nodeAdd (q, e) = some (q, x)) : remoteStatuses nodes q ≠ none := by
  refine extend_ne_none ?_
  rw [added_of_at h_listing h_at h_add]
  exact Option.some_ne_none _

end Githubfs

/-! ### `gitlstree` -/

/-- The files of the entries that are read. -/
def readFiles (read : List Gitlstree.Entry) : List (List Str × Gitlstree.File) :=
  read.map fun e => (e.path, .element e.element)

theorem adds_readFiles (read : List Gitlstree.Entry) :
    (readFiles read).map (fun e => (e.1, NewFile.file e.2)) = read.map Gitlstree.Entry.add := by
  rw [readFiles, List.map_map]
  rfl

/-- The entry is printed under its path. -/
def AsIs (x : List Str × GitTree.Entry) (e : Gitlstree.Entry) : Prop :=
  e.path = x.1 ∧ (e.mode, e.sha, e.size) = leafData x.2

theorem asIs (h : List.Forall₂ Printed seen read) (h_raw : read.map Gitlstree.Entry.path = seen.map Prod.fst) :
    (∀ x ∈ seen, ∃ e ∈ read, AsIs x e) ∧ ∀ e ∈ read, ∃ x ∈ seen, AsIs x e := by
  induction h with
  | nil => exact ⟨fun x hx => absurd hx List.not_mem_nil, fun e he => absurd he List.not_mem_nil⟩
  | @cons x e seen read h_x _ ih =>
    obtain ⟨h_path, h_raw⟩ := List.cons.inj h_raw
    obtain ⟨h_seen, h_read⟩ := ih h_raw
    rw [List.forall_mem_cons, List.forall_mem_cons]
    refine ⟨⟨⟨e, List.mem_cons_self, h_path, h_x.data⟩, fun y hy => ?_⟩,
      ⟨x, List.mem_cons_self, h_path, h_x.data⟩, fun y hy => ?_⟩
    · obtain ⟨e', he', h_y⟩ := h_seen y hy
      exact ⟨e', List.mem_cons_of_mem _ he', h_y⟩
    · obtain ⟨x', hx', h_y⟩ := h_read y hy
      exact ⟨x', List.mem_cons_of_mem _ hx', h_y⟩

/-- No leaf lies below another. -/
theorem prefixFree_readFiles (h_wf : GitTree.WellFormed root)
    (h_seen : ∀ x ∈ seen, GitTree.At root x.1 x.2 ∧ x.2.IsLeaf) (h_nodup : (seen.map Prod.fst).Nodup)
    (h_raw : read.map Gitlstree.Entry.path = seen.map Prod.fst) : PrefixFree (readFiles read) := by
  have h_pair : (seen.map Prod.fst).Pairwise fun p q => ¬ p <+: q ∧ ¬ q <+: p := by
    refine h_nodup.imp_of_mem fun {p q} hp hq h_ne => ?_
    obtain ⟨x, hx, rfl⟩ := List.mem_map.mp hp
    obtain ⟨y, hy, rfl⟩ := List.mem_map.mp hq
    obtain ⟨h_x, h_x_leaf⟩ := h_seen x hx
    obtain ⟨h_y, h_y_leaf⟩ := h_seen y hy
    exact ⟨fun h => h_ne (h_x.eq_of_leaf h_wf h_x_leaf h_y h),
      fun h => h_ne (h_y.eq_of_leaf h_wf h_y_leaf h_x h).symm⟩
  have h_fst : (readFiles read).map Prod.fst = seen.map Prod.fst := by
    rw [← h_raw, readFiles, List.map_map]
    rfl
  rw [← h_fst] at h_pair
  exact List.pairwise_map.mp h_pair

theorem domain_sized (h : Domain root) : Githubfs.Sized root := by
  intro q mode sha size h_at
  obtain ⟨-, h_mode, h_size⟩ := h.blob q mode sha size h_at
  exact ⟨h_mode, lt_of_le_of_lt h_size (by norm_num)⟩

/-- An element of one is like that of the other. -/
theorem alike_blob {mode size : ℕ} {sha : Str} {e : Gitlstree.Entry} (h_mode : mode ≠ sIFDIR)
    (h_size : size ≤ 2 ^ 24) (h : (e.mode, e.sha, e.size) = (mode, sha, some size)) :
    Alike (.file (.element e.element)) (.file (.element ⟨mode, sha, Githubfs.readSize size⟩)) := by
  obtain ⟨h_e_mode, h_e⟩ := Prod.mk.inj h
  obtain ⟨-, h_e_size⟩ := Prod.mk.inj h_e
  have h_not : (mode : ℤ) ≠ sIFDIR := fun h_eq => h_mode (Int.ofNat.inj h_eq)
  have h_stat : (Gitlstree.FileElement.getattr e.element)
      = Githubfs.FileElement.getattr ⟨mode, sha, Githubfs.readSize size⟩ := by
    rw [Gitlstree.FileElement.getattr, Githubfs.FileElement.getattr, if_neg h_not,
      Githubfs.readSize_of_le h_size, Gitlstree.Entry.element, h_e_mode, h_e_size]
    rfl
  exact .element (congrArg Stat.mode h_stat) (congrArg Stat.size h_stat)

/-! ### Agreeing -/

section Agreeing

variable {nodes : List (List Str × GitTree.Entry)} {e : GitTree.Entry}

/-- What is seen is a leaf of the tree. -/
def Seen (root : List (Str × GitTree.Entry)) (seen : List (List Str × GitTree.Entry)) : Prop :=
  ∀ x ∈ seen, GitTree.At root x.1 x.2 ∧ x.2.IsLeaf

/-- Above what is seen there are trees. -/
theorem Seen.tree (h : Seen root seen) {x : List Str × GitTree.Entry} (hx : x ∈ seen) (hq : q ≠ [])
    (h_pre : q <+: x.1) (h_ne : q ≠ x.1) : ∃ sha es, GitTree.At root q (.tree sha es) := by
  obtain ⟨h_at, -⟩ := h x hx
  obtain ⟨r, h_eq⟩ := h_pre
  rw [← h_eq] at h_at
  obtain ⟨sha, es, h_tree, -⟩ := h_at.above hq (by
    rintro rfl
    exact h_ne (by rw [← h_eq, List.append_nil]))
  exact ⟨sha, es, h_tree⟩

/-- **At one path**, apart from the exempt ones, both show the same. -/
theorem alike_at (h_domain : Domain root) (h_seen : Seen root seen) (h : Agreeable root seen)
    (h_listing : GitTree.Listing root nodes) (h_tracks : Tracks σ (readFiles read))
    (h_asIs : (∀ x ∈ seen, ∃ e ∈ read, AsIs x e) ∧ ∀ e ∈ read, ∃ x ∈ seen, AsIs x e)
    (hq : q ≠ []) (h_exempt : q ∉ exempt) :
    σ q = none ∧ added (nodes.filterMap Githubfs.nodeAdd) q = none ∨
      ∃ x y, σ q = some (some x) ∧ added (nodes.filterMap Githubfs.nodeAdd) q = some (some y) ∧ Alike x y := by
  have h_wf := h_domain.wellFormed
  have h_file {x : List Str × GitTree.Entry} (hx : x ∈ seen) :
      ∃ e ∈ read, AsIs x e ∧ σ x.1 = some (some (.file (.element e.element))) := by
    obtain ⟨e, he, h_e⟩ := h_asIs.1 x hx
    have h_mem : (e.path, Gitlstree.File.element e.element) ∈ readFiles read := List.mem_map.mpr ⟨e, he, rfl⟩
    exact ⟨e, he, h_e, h_e.1 ▸ h_tracks.file _ h_mem⟩
  -- what has been seen is at a leaf or above one
  have h_above (h_σ : σ q ≠ none) : ∃ x ∈ seen, q <+: x.1 := by
    obtain ⟨-, f, hf, h_pre⟩ := h_tracks.seen q h_σ
    obtain ⟨e, he, rfl⟩ := List.mem_map.mp hf
    obtain ⟨x, hx, h_path, -⟩ := h_asIs.2 e he
    exact ⟨x, hx, h_path ▸ h_pre⟩
  have h_none (h_at : ∀ e x, GitTree.At root q e → Githubfs.nodeAdd (q, e) ≠ some (q, x)) :
      added (nodes.filterMap Githubfs.nodeAdd) q = none := by
    by_contra h_some
    obtain ⟨e, x, h_e, h_add⟩ := exists_of_added h_listing h_some
    exact h_at e x h_e h_add
  by_cases h_at : ∃ e, GitTree.At root q e
  · obtain ⟨e, h_at⟩ := h_at
    cases e with
    | blob mode sha size =>
      obtain ⟨h_mode, -, h_size⟩ := h_domain.blob q mode sha size h_at
      obtain ⟨e, -, h_e, h_σ⟩ := h_file (h.blobs q mode sha size h_at h_exempt)
      exact .inr ⟨_, _, h_σ, added_of_at h_listing h_at rfl, alike_blob h_mode h_size h_e.2⟩
    | commit sha =>
      -- a submodule: neither of the two has it
      refine .inl ⟨?_, h_none fun e x h_e h_add => ?_⟩
      · by_contra h_σ
        obtain ⟨⟨p, e⟩, hx, h_pre⟩ := h_above h_σ
        obtain ⟨h_p, -⟩ := h_seen _ hx
        obtain rfl := h_at.eq_of_leaf h_wf trivial h_p h_pre
        obtain rfl := h_at.unique h_wf h_p
        exact h_exempt (mem_exempt_of_isPrefix (h.commits q sha hx) hq (List.prefix_refl _))
      · obtain rfl := h_at.unique h_wf h_e
        cases h_add
    | tree sha es =>
      refine .inr ⟨_, _, ?_, added_of_at h_listing h_at rfl, .dir⟩
      obtain ⟨⟨p, e⟩, hx, h_pre⟩ := h.trees q sha es h_at h_exempt
      obtain ⟨h_p, h_leaf⟩ := h_seen _ hx
      obtain ⟨e', he', h_e', -⟩ := h_file hx
      -- the file that makes the directory is below it, and not the tree itself
      refine h_tracks.dir q ⟨hq, _, List.mem_map.mpr ⟨e', he', rfl⟩, h_e'.1 ▸ h_pre, ?_⟩
      rintro rfl
      have h_p : GitTree.At root e'.path e := h_e'.1 ▸ h_p
      obtain rfl := h_at.unique h_wf h_p
      exact h_leaf
  · refine .inl ⟨?_, h_none fun e x h_e _ => h_at ⟨e, h_e⟩⟩
    by_contra h_σ
    obtain ⟨x, hx, h_pre⟩ := h_above h_σ
    by_cases h_eq : q = x.1
    · exact h_at ⟨x.2, h_eq ▸ (h_seen x hx).1⟩
    · obtain ⟨sha, es, h_tree⟩ := h_seen.tree hx hq h_pre h_eq
      exact h_at ⟨_, h_tree⟩

/-- Nothing is below the files of their own. -/
theorem nothing_below (h : Agreeable root seen)
    (h_listing : GitTree.Listing root nodes) (h_exempt : q ∉ exempt) {o : List Str}
    (ho : o ∈ Gitlstree.ownPaths) (h_pre : o <+: q) :
    (∀ x ∈ seen, ¬ q <+: x.1) ∧ added (nodes.filterMap Githubfs.nodeAdd) q = none := by
  have hq : q ≠ o := by
    rintro rfl
    have h_all : ∀ o ∈ Gitlstree.ownPaths, o ∈ exempt := by decide
    exact h_exempt (h_all q ho)
  have h_not : ∀ x ∈ seen, ¬ q <+: x.1 := by
    intro x hx h_below
    have h_ne : x.1 ≠ o := by
      rintro rfl
      exact hq (h_below.eq_of_length_le h_pre.length_le)
    exact (h.own x hx o ho h_ne).2 (h_pre.trans h_below)
  refine ⟨h_not, ?_⟩
  by_contra h_some
  obtain ⟨e, x, h_at, h_add⟩ := exists_of_added h_listing h_some
  cases e with
  | blob mode sha size => exact h_not _ (h.blobs q mode sha size h_at h_exempt) (List.prefix_refl _)
  | commit sha => cases h_add
  | tree sha es =>
    obtain ⟨x, hx, h_below⟩ := h.trees q sha es h_at h_exempt
    exact h_not x hx h_below

end Agreeing

section Loading

variable {runGitCommand : List Str → Str × ℤ} {ref : Str} {lines : List Str} {httpFetch : Str → Str}
  {githubApiPrefix treeHash : Str} {nodes : List (List Str × GitTree.Entry)} {k : ℕ}

theorem Leaves.seen_take (h : Leaves root leaves) (k : ℕ) : Seen root (leaves.take k) :=
  fun x hx => (h.mem_iff x.1 x.2).mp (List.mem_of_mem_take hx)

theorem Leaves.nodup_take (h : Leaves root leaves) (k : ℕ) : ((leaves.take k).map Prod.fst).Nodup :=
  h.nodup.sublist ((List.take_sublist k leaves).map Prod.fst)

/-- The sizes of a listing are small. -/
theorem fits_size {x : List Str × GitTree.Entry} {e : Gitlstree.Entry} (h_domain : Domain root)
    (h_at : GitTree.At root x.1 x.2) (h : Printed x e) : Fits (e.size.getD 0) := by
  obtain ⟨q, t⟩ := x
  obtain ⟨-, h_data⟩ := Prod.mk.inj h.data
  obtain ⟨-, h_size⟩ := Prod.mk.inj h_data
  rw [h_size]
  cases t with
  | blob mode sha size =>
    obtain ⟨-, -, h_le⟩ := h_domain.blob q mode sha size h_at
    have h_lt : size < 0x80000000 := lt_of_le_of_lt h_le (by norm_num)
    exact ⟨by rw [Option.getD_some]; omega, by rw [Option.getD_some]; omega⟩
  | commit sha => exact (by decide : Fits 0)
  | tree sha es => exact (by decide : Fits 0)

theorem fits_sizes (h_domain : Domain root) (h_seen : Seen root seen)
    (h : List.Forall₂ Printed seen read) : ∀ e ∈ read, Fits (e.size.getD 0) := by
  induction h with
  | nil => exact fun e he => absurd he List.not_mem_nil
  | cons h_x _ ih =>
    obtain ⟨⟨h_at, -⟩, h_seen⟩ := List.forall_mem_cons.mp h_seen
    rw [List.forall_mem_cons]
    exact ⟨fits_size h_domain h_at h_x, ih h_seen⟩

theorem spaces_of_printed (h : List.Forall₂ Printed leaves entries) :
    ∀ e ∈ entries, ∀ n ∈ e.path, space ∉ n := by
  induction h with
  | nil => exact fun e he => absurd he List.not_mem_nil
  | cons h_x _ ih =>
    rw [List.forall_mem_cons]
    exact ⟨h_x.spaces, ih⟩

/-- **They show the same**, if they agree about the tree. -/
theorem shows_of_agreeable (h_domain : Domain root) (h_seen : Seen root seen) (h : Agreeable root seen)
    (h_listing : GitTree.Listing root nodes) (h_tracks : Tracks σ (readFiles read))
    (h_asIs : (∀ x ∈ seen, ∃ e ∈ read, AsIs x e) ∧ ∀ e ∈ read, ∃ x ∈ seen, AsIs x e)
    (h_inv : Inv ((Gitlstree.ownAdds hash).foldl extend σ) c) (h_inv' : Inv (remoteStatuses nodes) c') :
    Shows c c' := by
  intro s hs
  by_cases h_path : ∃ q, IsPath q ∧ s = render q
  · obtain ⟨q, hq, rfl⟩ := h_path
    have h_exempt : q ∉ exempt := fun h_mem => hs q h_mem rfl
    have h_local : (Gitlstree.ownAdds hash).foldl extend σ q = σ q := by
      refine own_other h_exempt fun o ho h_pre => ?_
      by_contra h_σ
      obtain ⟨-, f, hf, h_le⟩ := h_tracks.seen q h_σ
      obtain ⟨e, he, rfl⟩ := List.mem_map.mp hf
      obtain ⟨x, hx, h_e, -⟩ := h_asIs.2 e he
      exact (nothing_below h h_listing h_exempt ho h_pre).1 x hx (h_e ▸ h_le)
    have h_remote : remoteStatuses nodes q = added (nodes.filterMap Githubfs.nodeAdd) q := by
      refine remoteStatuses_eq ?_ fun h_pre => (nothing_below h h_listing h_exempt (.head _) h_pre).2
      rintro rfl
      exact h_exempt (by decide)
    rw [h_inv.look hq, h_inv'.look hq, h_local, h_remote]
    exact alike_at h_domain h_seen h h_listing h_tracks h_asIs hq.ne_nil h_exempt
  · have h_path : ∀ q, IsPath q → s ≠ render q := fun q hq h_eq => h_path ⟨q, hq, h_eq⟩
    by_cases h_root : s = [slash]
    · rw [h_root]
      exact .inr ⟨.dir, .dir, h_inv.look_root, h_inv'.look_root, .dir⟩
    · exact .inl ⟨h_inv.look_eq_none h_root h_path, h_inv'.look_eq_none h_root h_path⟩

/-- And then they do load it. -/
theorem same_of_agreeable (h_domain : Domain root) (h_prints : Gitlstree.Prints runGitCommand ref hash lines)
    (h_lines : List.Forall₂ Gitlstree.IsLine entries lines) (h_wf : ∀ e ∈ entries, e.WellFormed)
    (h_leaves : Leaves root leaves) (h_printed : List.Forall₂ Printed leaves entries)
    (h_recurses : Githubfs.Recurses httpFetch githubApiPrefix treeHash root)
    (h_reads : Gitlstree.Reads 0 lines k)
    (h_raw : (entries.take k).map Gitlstree.Entry.path = (leaves.take k).map Prod.fst)
    (h : Agreeable root (leaves.take k)) : Same runGitCommand ref httpFetch githubApiPrefix treeHash := by
  intro adds h_loads
  have h_root := h_domain.wellFormed
  obtain ⟨nodes, h_listing, h_remote, -⟩ :=
    Githubfs.exists_remote h_recurses h_root (domain_sized h_domain)
  rw [(h_remote _ _).mp h_loads]
  obtain ⟨c', h_c', h_inv'⟩ := exists_gitTree (Githubfs.parentsFirst_listing h_listing h_root)
  have h_seen := h_leaves.seen_take k
  have h_take := List.forall₂_take k h_printed
  have h_asIs := asIs h_take h_raw
  have h_wf' : ∀ e ∈ entries.take k, e.WellFormed := fun e he => h_wf e (List.mem_of_mem_take he)
  -- the entries first
  have h_free := prefixFree_readFiles h_root h_seen (h_leaves.nodup_take k) h_raw
  have h_free' : PrefixFree ([] ++ readFiles (entries.take k)) := by
    rwa [List.nil_append]
  obtain ⟨h_along, h_tracks⟩ := tracks_nil.run h_free' fun f hf => by
      obtain ⟨e, he, rfl⟩ := List.mem_map.mp hf
      exact (h_wf' e he).isPath
  rw [adds_readFiles] at h_along h_tracks
  rw [List.nil_append] at h_tracks
  -- and then the two files, for which `.git` must be no file
  have h_git : Passable (((entries.take k).map Gitlstree.Entry.add).foldl extend fun _ => none)
      [str ".git"] := by
    by_contra h_bad
    obtain ⟨-, f, hf, h_pre⟩ := h_tracks.seen [str ".git"] fun h_none => h_bad (.inl h_none)
    refine h_bad (.inr (h_tracks.dir _ ⟨by decide, f, hf, h_pre, ?_⟩))
    obtain ⟨e, he, rfl⟩ := List.mem_map.mp hf
    obtain ⟨x, hx, h_e, -⟩ := h_asIs.2 e he
    intro h_eq
    have h_x : x.1 = [str ".git"] := (h_eq.trans h_e).symm
    have h_own := h.own x hx [str ".git", str "HEAD"] (.tail _ (.head _)) (by rw [h_x]; decide)
    rw [h_x] at h_own
    exact h_own.1 (by decide)
  have h_paths := Gitlstree.adds_isPath h_wf' hash
  obtain ⟨c, h_c, h_inv⟩ := (inv_empty.addAll h_paths).1 (Along.append.mpr ⟨h_along, own_along.mpr h_git⟩)
  rw [List.foldl_append] at h_inv
  refine ⟨c, c', ?_, h_c', shows_of_agreeable h_domain h_seen h h_listing h_tracks h_asIs h_inv h_inv'⟩
  exact (Gitlstree.loadDirectory_eq_ok_iff_reads h_prints h_lines h_wf (spaces_of_printed h_printed)).mpr
    ⟨rfl, k, h_reads, fits_sizes h_domain h_seen h_take, h_c⟩

/-- At every path but the exempt ones both have something, or neither has. -/
def ShowsAt (σ : Statuses Gitlstree.File) (σ' : Statuses Githubfs.File) : Prop :=
  ∀ q, IsPath q → q ∉ exempt → σ q ≠ none ∨ σ' q ≠ none →
    ∃ x y, σ q = some (some x) ∧ σ' q = some (some y) ∧ Alike x y

theorem Shows.at_path {σ' : Statuses Githubfs.File} (h : Shows c c') (h_inv : Inv σ c) (h_inv' : Inv σ' c') :
    ShowsAt σ σ' := by
  intro q hq h_exempt h_some
  have h_ne : ∀ p ∈ exempt, render q ≠ render p := by
    intro p hp h_eq
    have h_q := render_inj hq.isName (exempt_isPath p hp).isName h_eq
    exact h_exempt (h_q ▸ hp)
  obtain h_none | h_alike := h (render q) h_ne
  · rw [h_inv.look hq, h_inv'.look hq] at h_none
    exact (h_some.elim (· h_none.1) (· h_none.2)).elim
  · rwa [h_inv.look hq, h_inv'.look hq] at h_alike

/-- Where nothing is in quotes, the paths are those of the leaves. -/
theorem raw_of_not_quoted (h : List.Forall₂ Printed seen read)
    (h_not : ∀ e ∈ read, ∀ n r, e.path ≠ (0x22 :: n) :: r) :
    read.map Gitlstree.Entry.path = seen.map Prod.fst := by
  induction h with
  | nil => rfl
  | cons h_x _ ih =>
    obtain ⟨h_e, h_not⟩ := List.forall_mem_cons.mp h_not
    obtain h_path | ⟨n, r, h_quoted⟩ := h_x.path
    · rw [List.map_cons, List.map_cons, h_path, ih h_not]
    · exact absurd h_quoted (h_e n r)

/-- A path in quotes is in one of the containers only. -/
theorem not_quoted (h_domain : Domain root) (h_listing : GitTree.Listing root nodes)
    (h_shows : ShowsAt σ (remoteStatuses nodes)) (hq : IsPath q) (h_seen : σ q ≠ none) (n : Str)
    (r : List Str) : q ≠ (0x22 :: n) :: r := by
  rintro rfl
  have h_heads : ∀ p ∈ exempt, p.head?.bind List.head? ≠ some 0x22 := by decide
  have h_exempt : (0x22 :: n) :: r ∉ exempt := fun h_mem => h_heads _ h_mem rfl
  have h_status : (0x22 :: n) :: r ≠ [str ".status"] := by
    intro h_eq
    exact h_exempt (h_eq ▸ .head _)
  obtain ⟨x, y, -, h_remote, -⟩ := h_shows _ hq h_exempt (.inl h_seen)
  obtain ⟨e, _, h_at, -⟩ := at_of_remoteStatuses h_listing h_status (by
    rw [h_remote]
    exact Option.some_ne_none _)
  exact (h_domain.names _ e h_at _ List.mem_cons_self _ List.mem_cons_self).2.2.1 rfl

/-- **They agree about the tree**, if they show the same. -/
theorem agreeable_of_showsAt (h_domain : Domain root) (h_seen : Seen root seen)
    (h_listing : GitTree.Listing root nodes) (h_tracks : Tracks σ (readFiles read))
    (h_asIs : (∀ x ∈ seen, ∃ e ∈ read, AsIs x e) ∧ ∀ e ∈ read, ∃ x ∈ seen, AsIs x e)
    (h_git : Passable σ [str ".git"])
    (h_shows : ShowsAt ((Gitlstree.ownAdds hash).foldl extend σ) (remoteStatuses nodes)) :
    Agreeable root seen := by
  have h_wf := h_domain.wellFormed
  have h_path {e : GitTree.Entry} {q : List Str} (h_at : GitTree.At root q e) : IsPath q := h_at.isPath h_wf
  have h_file {x : List Str × GitTree.Entry} (hx : x ∈ seen) :
      ∃ f, σ x.1 = some (some (.file f)) := by
    obtain ⟨e, he, h_e, -⟩ := h_asIs.1 x hx
    have h_mem : (e.path, Gitlstree.File.element e.element) ∈ readFiles read := List.mem_map.mpr ⟨e, he, rfl⟩
    exact ⟨_, h_e ▸ h_tracks.file _ h_mem⟩
  -- no file of the listing is above or below one of the files that `gitlstree` adds
  have h_own : ∀ x ∈ seen, ∀ o ∈ Gitlstree.ownPaths, x.1 ≠ o → ¬ x.1 <+: o ∧ ¬ o <+: x.1 := by
    intro x hx o ho h_ne
    obtain ⟨f, h_σ⟩ := h_file hx
    have h_x := (h_path (h_seen x hx).1)
    constructor
    · -- above one of their own there is only `.git`
      intro h_pre
      have h_eq : x.1 = [str ".git"] := by
        obtain rfl | rfl : o = _ ∨ o = _ := by simpa [Gitlstree.ownPaths] using ho
        · exact absurd (eq_of_isPrefix_name h_x.ne_nil h_pre) h_ne
        · have h_pre : x.1 <+: [str ".git"] ++ [str "HEAD"] := h_pre
          exact eq_of_isPrefix_name h_x.ne_nil ((List.prefix_concat_iff.mp h_pre).resolve_left h_ne)
      rw [h_eq] at h_σ
      obtain h_none | h_dir := h_git
      · rw [h_σ] at h_none
        cases h_none
      · rw [h_σ] at h_dir
        cases h_dir
    · -- below it, the file is gone
      intro h_pre
      have h_gone : (Gitlstree.ownAdds hash).foldl extend σ x.1 = some none :=
        own_gone ho h_pre (Ne.symm h_ne) (by rw [h_σ]; exact Option.some_ne_none _)
      have h_all : ∀ o ∈ Gitlstree.ownPaths, ∀ p ∈ exempt, o <+: p → p = o := by decide
      obtain ⟨y, z, h_y, -⟩ := h_shows x.1 h_x (fun h_mem => h_ne (h_all o ho x.1 h_mem h_pre))
        (.inl (by rw [h_gone]; exact Option.some_ne_none _))
      rw [h_gone] at h_y
      cases h_y
  refine ⟨fun q mode sha size h_at h_exempt => ?_, fun q sha hx => ?_, fun q sha es h_at h_exempt => ?_, h_own⟩
  case refine_1 =>
    obtain ⟨x, y, h_x, h_y, h_alike⟩ := h_shows q (h_path h_at) h_exempt
      (.inr (remoteStatuses_of_at h_listing h_at rfl))
    -- in `githubfs` it is a file, so it is one in `gitlstree`
    have h_status : ¬ [str ".status"] <+: q := by
      intro h_pre
      have h_ne : q ≠ [str ".status"] := by
        rintro rfl
        exact h_exempt (.head _)
      have h_gone : remoteStatuses nodes q = some none := by
        refine extend_below (by decide) h_pre h_ne ?_
        rw [added_of_at h_listing h_at rfl]
        exact Option.some_ne_none _
      rw [h_gone] at h_y
      cases h_y
    have h_ne : q ≠ [str ".status"] := by
      rintro rfl
      exact h_status (List.prefix_refl _)
    rw [remoteStatuses_eq h_ne fun h_pre => absurd h_pre h_status, added_of_at h_listing h_at rfl] at h_y
    obtain rfl := Option.some.inj (Option.some.inj h_y)
    cases h_alike with
    | element h_mode h_size =>
      obtain h_σ | h_mem := file_foldl h_x
      · obtain ⟨-, f, hf, h_pre⟩ := h_tracks.seen q (by rw [h_σ]; exact Option.some_ne_none _)
        obtain ⟨e, he, rfl⟩ := List.mem_map.mp hf
        obtain ⟨⟨p, t⟩, hx, h_e, -⟩ := h_asIs.2 e he
        have h_path : e.path = p := h_e
        have h_pre : q <+: e.path := h_pre
        rw [h_path] at h_pre
        obtain rfl := h_at.eq_of_leaf h_wf trivial (h_seen _ hx).1 h_pre
        obtain rfl := h_at.unique h_wf (h_seen _ hx).1
        exact hx
      · obtain ⟨o, ho, h_eq⟩ := List.mem_map.mp h_mem
        obtain ⟨-, h_file⟩ := Prod.mk.inj h_eq
        exact absurd (NewFile.file.inj h_file) ((Gitlstree.mem_ownPaths ho).2 _)
  case refine_2 =>
    -- a submodule that is listed: `githubfs` has nothing there
    by_contra h_not
    have h_at := (h_seen _ hx).1
    have h_exempt : q ∉ exempt := by
      intro h_mem
      have h_all : ∀ p ∈ exempt, p ∉ Gitlstree.ownPaths → p <+: [str ".git", str "HEAD"] := by decide
      have h_head : q ≠ [str ".git", str "HEAD"] := fun h_eq => h_not (h_eq ▸ .tail _ (.head _))
      exact (h_own _ hx _ (.tail _ (.head _)) h_head).1 (h_all q h_mem h_not)
    obtain ⟨f, h_σ⟩ := h_file hx
    have h_σ : σ q ≠ none := by
      rw [h_σ]
      exact Option.some_ne_none _
    obtain ⟨y, z, -, h_z, -⟩ := h_shows q (h_path h_at) h_exempt (.inl (foldl_extend_ne_none (.inl h_σ)))
    have h_status : q ≠ [str ".status"] := by
      rintro rfl
      exact h_exempt (.head _)
    obtain ⟨e, x, h_e, h_add⟩ := at_of_remoteStatuses h_listing h_status (by
      rw [h_z]
      exact Option.some_ne_none _)
    obtain rfl := h_at.unique h_wf h_e
    cases h_add
  case refine_3 =>
    obtain ⟨x, y, h_x, -⟩ := h_shows q (h_path h_at) h_exempt
      (.inr (remoteStatuses_of_at h_listing h_at rfl))
    by_contra h_not
    -- only `githubfs` has a directory without a file below it
    have h_σ : σ q = none := by
      by_contra h_some
      obtain ⟨-, f, hf, h_pre⟩ := h_tracks.seen q h_some
      obtain ⟨e, he, rfl⟩ := List.mem_map.mp hf
      obtain ⟨x, hx, h_e, -⟩ := h_asIs.2 e he
      exact h_not ⟨x, hx, h_e ▸ h_pre⟩
    rw [own_other h_exempt fun _ _ _ => h_σ, h_σ] at h_x
    cases h_x

/-- So it is, where both have loaded the tree and show the same. -/
theorem agreeable_of_same (h_domain : Domain root) (h_prints : Gitlstree.Prints runGitCommand ref hash lines)
    (h_lines : List.Forall₂ Gitlstree.IsLine entries lines) (h_wf : ∀ e ∈ entries, e.WellFormed)
    (h_leaves : Leaves root leaves) (h_printed : List.Forall₂ Printed leaves entries)
    (h_recurses : Githubfs.Recurses httpFetch githubApiPrefix treeHash root)
    (h_same : Same runGitCommand ref httpFetch githubApiPrefix treeHash) :
    ∃ k, Gitlstree.Reads 0 lines k ∧
      (entries.take k).map Gitlstree.Entry.path = (leaves.take k).map Prod.fst ∧
      Agreeable root (leaves.take k) := by
  have h_root := h_domain.wellFormed
  -- the nodes that githubfs loads, in the order of its answers
  obtain ⟨nodes, h_listing, h_remote, -⟩ :=
    Githubfs.exists_remote h_recurses h_root (domain_sized h_domain)
  obtain ⟨c', h_c', h_inv'⟩ := exists_gitTree (Githubfs.parentsFirst_listing h_listing h_root)
  obtain ⟨c, c₁, h_load, h_c₁, h_shows⟩ := h_same _ ((h_remote _ _).mpr rfl)
  obtain rfl := Except.ok.inj (h_c₁.symm.trans h_c')
  -- gitlstree has read the first `k` lines
  obtain ⟨-, k, h_reads, -, h_add⟩ := (Gitlstree.loadDirectory_eq_ok_iff_reads h_prints h_lines h_wf
    (spaces_of_printed h_printed)).mp h_load
  have h_wf' : ∀ e ∈ entries.take k, e.WellFormed := fun e he => h_wf e (List.mem_of_mem_take he)
  obtain ⟨h_along, h_inv⟩ := inv_of_addAll (Gitlstree.adds_isPath h_wf' hash) h_add
  have h_showsAt := h_shows.at_path h_inv h_inv'
  have h_take := List.forall₂_take k h_printed
  have h_seen := h_leaves.seen_take k
  -- a quoted path would be shown by one of the two only
  have h_raw := raw_of_not_quoted h_take fun e he => not_quoted h_domain h_listing h_showsAt
    (h_wf' e he).isPath (foldl_extend_ne_none (.inr (by
      rw [List.map_append]
      exact List.mem_append_left _ (List.mem_map.mpr ⟨e.add, List.mem_map.mpr ⟨e, he, rfl⟩, rfl⟩))))
  refine ⟨k, h_reads, h_raw, ?_⟩
  -- of the paths of a tree none is at the beginning of another one
  have h_free : PrefixFree ([] ++ readFiles (entries.take k)) := by
    rw [List.nil_append]
    exact prefixFree_readFiles h_root h_seen (h_leaves.nodup_take k) h_raw
  obtain ⟨-, h_tracks⟩ := tracks_nil.run h_free fun f hf => by
    obtain ⟨e, he, rfl⟩ := List.mem_map.mp hf
    exact (h_wf' e he).isPath
  rw [adds_readFiles, List.nil_append] at h_tracks
  rw [List.foldl_append] at h_showsAt
  exact agreeable_of_showsAt h_domain h_seen h_listing h_tracks (asIs h_take h_raw)
    (own_along.mp (Along.append.mp h_along).2) h_showsAt

/-- **When both file systems show the same.** -/
theorem same_iff (runGitCommand : List Str → Str × ℤ) (ref hash : Str) (lines : List Str)
    (httpFetch : Str → Str) (githubApiPrefix treeHash : Str) (root : List (Str × GitTree.Entry))
    (leaves : List (List Str × GitTree.Entry)) (entries : List Gitlstree.Entry) (h_domain : Domain root)
    (h_prints : Gitlstree.Prints runGitCommand ref hash lines)
    (h_lines : List.Forall₂ Gitlstree.IsLine entries lines) (h_wf : ∀ e ∈ entries, e.WellFormed)
    (h_leaves : Leaves root leaves) (h_printed : List.Forall₂ Printed leaves entries)
    (h_recurses : Githubfs.Recurses httpFetch githubApiPrefix treeHash root) :
    Same runGitCommand ref httpFetch githubApiPrefix treeHash ↔
      ∃ k, Gitlstree.Reads 0 lines k ∧
        (entries.take k).map Gitlstree.Entry.path = (leaves.take k).map Prod.fst ∧
        Agreeable root (leaves.take k) :=
  ⟨agreeable_of_same h_domain h_prints h_lines h_wf h_leaves h_printed h_recurses,
    fun ⟨_, h_reads, h_raw, h⟩ =>
      same_of_agreeable h_domain h_prints h_lines h_wf h_leaves h_printed h_recurses h_reads h_raw h⟩

end Loading

/-! ### A tree with subdirectories -/

/-- The directory with a symlink. -/
def nestedSrc : List (Str × GitTree.Entry) :=
  [(str "link", .blob 0xa000 (str "19102815663d23f8b75a47e7a01965dcdc96468c") 3)]

/-- The directory with a file that can be executed. -/
def nestedLib : List (Str × GitTree.Entry) :=
  [(str "run", .blob 0x81ed (str "8ab686eafeb1f44702738c8b0f24f2567c36da6d") 12),
    (str "src", .tree (str "2a6b1d7a3e4c5b8d9e0f1a2b3c4d5e6f70819203") nestedSrc)]

/-- The tree that `Gitlstree.nestedLines` lists. -/
def nestedRoot : List (Str × GitTree.Entry) :=
  [(str "README", .blob 0x81a4 (str "f313668af32ea3447a594ae1e7d8ac9841fbae7b") 5),
    (str "lib", .tree (str "9fa1b33ae6e8f5d2d5b5e2b0c4c1f6a0f0b7c2d4") nestedLib)]

/-- Its blobs. -/
def nestedLeaves : List (List Str × GitTree.Entry) :=
  [([str "README"], .blob 0x81a4 (str "f313668af32ea3447a594ae1e7d8ac9841fbae7b") 5),
    ([str "lib", str "run"], .blob 0x81ed (str "8ab686eafeb1f44702738c8b0f24f2567c36da6d") 12),
    ([str "lib", str "src", str "link"], .blob 0xa000 (str "19102815663d23f8b75a47e7a01965dcdc96468c") 3)]

/-- Everything in it, with the texts of the mode and the size. -/
def nestedNodes : List ((List Str × GitTree.Entry) × Str × Str) :=
  [(([str "README"], .blob 0x81a4 (str "f313668af32ea3447a594ae1e7d8ac9841fbae7b") 5), str "100644", str "5"),
    (([str "lib"], .tree (str "9fa1b33ae6e8f5d2d5b5e2b0c4c1f6a0f0b7c2d4") nestedLib), str "040000", str "0"),
    (([str "lib", str "run"], .blob 0x81ed (str "8ab686eafeb1f44702738c8b0f24f2567c36da6d") 12),
      str "100755", str "12"),
    (([str "lib", str "src"], .tree (str "2a6b1d7a3e4c5b8d9e0f1a2b3c4d5e6f70819203") nestedSrc),
      str "040000", str "0"),
    (([str "lib", str "src", str "link"], .blob 0xa000 (str "19102815663d23f8b75a47e7a01965dcdc96468c") 3),
      str "120000", str "3")]

/-- What GitHub answers. -/
def nestedAnswer (_ : Str) : Str :=
  Githubfs.listText nestedNodes

theorem preorder_nestedRoot : GitTree.preorder nestedRoot = nestedNodes.map Prod.fst := by
  simp only [nestedRoot, nestedLib, nestedSrc, nestedNodes, GitTree.preorder, List.map_cons, List.map_nil,
    List.cons_append, List.nil_append]

theorem at_nestedRoot {q : List Str} {e : GitTree.Entry} :
    GitTree.At nestedRoot q e ↔ (q, e) ∈ nestedNodes.map Prod.fst := by
  rw [← preorder_nestedRoot, GitTree.mem_preorder]

theorem nestedRoot_wellFormed : GitTree.WellFormed nestedRoot := by
  have h_root : GitTree.Named nestedRoot := ⟨by decide, by decide⟩
  have h_lib : GitTree.Named nestedLib := ⟨by decide, by decide⟩
  have h_src : GitTree.Named nestedSrc := ⟨by decide, by decide⟩
  refine ⟨h_root, fun q sha es' h_at => ?_⟩
  rw [at_nestedRoot] at h_at
  simp only [nestedNodes, List.map_cons, List.map_nil, List.mem_cons, List.not_mem_nil, Prod.mk.injEq,
    reduceCtorEq, GitTree.Entry.tree.injEq, and_false, or_false, false_or] at h_at
  obtain ⟨-, -, rfl⟩ | ⟨-, -, rfl⟩ := h_at
  · exact h_lib
  · exact h_src

theorem nestedRoot_domain : Domain nestedRoot where
  wellFormed := nestedRoot_wellFormed
  names q e h_at := by
    have h_all : ∀ x ∈ nestedNodes, ∀ n ∈ x.1.1, ∀ b ∈ n, b ≠ 0x20 ∧ b ≠ 0x09 ∧ b ≠ 0x22 ∧ b ≠ 0x5c := by
      decide +kernel
    obtain ⟨x, hx, h_eq⟩ := List.mem_map.mp (at_nestedRoot.mp h_at)
    have h_q : x.1.1 = q := congrArg Prod.fst h_eq
    exact h_q ▸ h_all x hx
  blob q mode sha size h_at := by
    rw [at_nestedRoot] at h_at
    simp only [nestedNodes, List.map_cons, List.map_nil, List.mem_cons, List.not_mem_nil, Prod.mk.injEq,
      reduceCtorEq, GitTree.Entry.blob.injEq, and_false, or_false, false_or] at h_at
    obtain ⟨-, rfl, -, rfl⟩ | ⟨-, rfl, -, rfl⟩ | ⟨-, rfl, -, rfl⟩ := h_at
    all_goals exact ⟨by decide, by decide, by decide⟩

theorem nestedLeaves_leaves : Leaves nestedRoot nestedLeaves where
  mem_iff q e := by
    rw [at_nestedRoot]
    simp only [nestedNodes, nestedLeaves, List.map_cons, List.map_nil, List.mem_cons, List.not_mem_nil,
      Prod.mk.injEq, or_false]
    constructor
    · rintro (⟨rfl, rfl⟩ | ⟨rfl, rfl⟩ | ⟨rfl, rfl⟩)
      · exact ⟨.inl ⟨rfl, rfl⟩, trivial⟩
      · exact ⟨.inr (.inr (.inl ⟨rfl, rfl⟩)), trivial⟩
      · exact ⟨.inr (.inr (.inr (.inr ⟨rfl, rfl⟩))), trivial⟩
    · rintro ⟨⟨rfl, rfl⟩ | ⟨rfl, rfl⟩ | ⟨rfl, rfl⟩ | ⟨rfl, rfl⟩ | ⟨rfl, rfl⟩, h_leaf⟩
      · exact .inl ⟨rfl, rfl⟩
      · exact h_leaf.elim
      · exact .inr (.inl ⟨rfl, rfl⟩)
      · exact h_leaf.elim
      · exact .inr (.inr ⟨rfl, rfl⟩)
  nodup := by decide

theorem nested_printed : List.Forall₂ Printed nestedLeaves Gitlstree.nestedEntries :=
  .cons ⟨.inl rfl, by decide, rfl⟩ (.cons ⟨.inl rfl, by decide, rfl⟩ (.cons ⟨.inl rfl, by decide, rfl⟩ .nil))

theorem printable_nested : ∀ x ∈ nestedNodes, Githubfs.Printable (Githubfs.treeEntry x.1.1 [] x.1.2, x.2) := by
  have h_plain : ∀ x ∈ nestedNodes, Githubfs.Plain (Githubfs.treeEntry x.1.1 [] x.1.2).path ∧
      Githubfs.Plain (Githubfs.treeEntry x.1.1 [] x.1.2).sha ∧
      Githubfs.Plain (Githubfs.treeEntry x.1.1 [] x.1.2).url := by
    decide +kernel
  have h_ne : ∀ x ∈ nestedNodes, x.2.1 ≠ [] ∧ x.2.2 ≠ [] := by decide
  have h_octal : ∀ x ∈ nestedNodes, ∀ b ∈ x.2.1, ∃ d ∈ digitValue b, d < 8 := by decide +kernel
  have h_decimal : ∀ x ∈ nestedNodes, ∀ b ∈ x.2.2, ∃ d ∈ digitValue b, d < 10 := by decide +kernel
  have h_mode : ∀ x ∈ nestedNodes, digitsFrom 8 0 x.2.1 = (Githubfs.treeEntry x.1.1 [] x.1.2).mode := by
    decide +kernel
  have h_size : ∀ x ∈ nestedNodes, digitsFrom 10 0 x.2.2 = (Githubfs.treeEntry x.1.1 [] x.1.2).size := by
    decide +kernel
  intro x hx
  obtain ⟨h_path, h_sha, h_url⟩ := h_plain x hx
  exact ⟨h_path, h_sha, h_url, (h_ne x hx).1, h_mode x hx ▸ numeral_digitsFrom (h_octal x hx), (h_ne x hx).2,
    h_size x hx ▸ numeral_digitsFrom (h_decimal x hx)⟩

theorem nested_recurses : Githubfs.Recurses nestedAnswer [] (str "5c7b") nestedRoot := by
  have h_listing := GitTree.listing_preorder nestedRoot_wellFormed
  rw [preorder_nestedRoot] at h_listing
  exact ⟨_, h_listing, Githubfs.lists_listText printable_nested⟩

/-- There are no submodules, and no directory is empty. -/
theorem nested_agreeable : Agreeable nestedRoot nestedLeaves where
  blobs q mode sha size h_at _ := (nestedLeaves_leaves.mem_iff q _).mpr ⟨h_at, trivial⟩
  commits q sha h := by
    simp only [nestedLeaves, List.mem_cons, List.not_mem_nil, Prod.mk.injEq, reduceCtorEq, and_false,
      or_false] at h
  trees q sha es h_at _ := by
    have h_all : ∀ x ∈ nestedNodes, ∃ y ∈ nestedLeaves, x.1.1 <+: y.1 := by decide
    obtain ⟨x, hx, h_eq⟩ := List.mem_map.mp (at_nestedRoot.mp h_at)
    have h_q : x.1.1 = q := congrArg Prod.fst h_eq
    exact h_q ▸ h_all x hx
  own := by decide

theorem same_nested : Same Gitlstree.printsNested (str "HEAD") nestedAnswer [] (str "5c7b") :=
  (same_iff Gitlstree.printsNested (str "HEAD") (str "5c7b") Gitlstree.nestedLines nestedAnswer [] (str "5c7b")
    nestedRoot nestedLeaves Gitlstree.nestedEntries nestedRoot_domain Gitlstree.printsNested_prints
    Gitlstree.isLine_nested Gitlstree.nested_wellFormed nestedLeaves_leaves nested_printed
    nested_recurses).mpr ⟨3, Gitlstree.nested_readable.ends.reads, rfl, nested_agreeable⟩

/-! ### A submodule -/

/-- The hash of a commit. -/
def submoduleSha : Str :=
  str "f313668af32ea3447a594ae1e7d8ac9841fbae7b"

/-- A tree with a submodule and nothing else. -/
def submoduleRoot : List (Str × GitTree.Entry) :=
  [(str "m", .commit submoduleSha)]

/-- Its entry in the listing. -/
def submoduleEntry : Gitlstree.Entry :=
  ⟨[str "m"], 0xe000, submoduleSha, none⟩

/-- Its line. -/
def submoduleLine : Str :=
  str "160000 commit f313668af32ea3447a594ae1e7d8ac9841fbae7b       -\tm"

/-- What `git` prints. -/
def submoduleGit (command : List Str) : Str × ℤ :=
  if command = [str "git", str "rev-parse", str "HEAD"] then (str "5c7b\n", 0)
  else (Gitlstree.text [submoduleLine], 0)

/-- What GitHub answers. -/
def submoduleAnswer (_ : Str) : Str :=
  Githubfs.listText [(([str "m"], .commit submoduleSha), str "160000", str "0")]

theorem at_submoduleRoot {q : List Str} {e : GitTree.Entry} :
    GitTree.At submoduleRoot q e ↔ (q, e) ∈ [([str "m"], GitTree.Entry.commit submoduleSha)] := by
  rw [List.mem_singleton, Prod.mk.injEq]
  constructor
  · intro h
    cases h with
    | here h =>
      obtain ⟨rfl, rfl⟩ := Prod.mk.inj (List.mem_singleton.mp h)
      exact ⟨rfl, rfl⟩
    | under h h_at => cases (Prod.mk.inj (List.mem_singleton.mp h)).2
  · rintro ⟨rfl, rfl⟩
    exact .here (.head _)

theorem submodule_domain : Domain submoduleRoot where
  wellFormed := by
    refine ⟨⟨fun x hx => ?_, List.nodup_singleton _⟩, fun q sha es' h_at => ?_⟩
    · rw [List.mem_singleton.mp hx]
      exact (by decide : IsName (str "m"))
    · rw [at_submoduleRoot, List.mem_singleton] at h_at
      cases (Prod.mk.inj h_at).2
  names q e h_at := by
    rw [at_submoduleRoot, List.mem_singleton] at h_at
    obtain ⟨rfl, -⟩ := Prod.mk.inj h_at
    decide +kernel
  blob q mode sha size h_at := by
    rw [at_submoduleRoot, List.mem_singleton] at h_at
    cases (Prod.mk.inj h_at).2

theorem submodule_isLine : Gitlstree.IsLine submoduleEntry submoduleLine := by
  have h_mode : Numeral 8 (str "160000") 0xe000 := numeral_digitsFrom (by decide +kernel)
  have h_line : Gitlstree.IsLine submoduleEntry _ := .mk h_mode rfl .none
  have h_text : submoduleLine = str "160000" ++ space :: (submoduleEntry.typeName ++ space ::
      (submoduleEntry.sha ++ space :: (List.replicate 6 space ++ (str "-" ++ Gitlstree.tab ::
        (render submoduleEntry.path).tail)))) := by
    decide +kernel
  rw [h_text]
  exact h_line

theorem submodule_wellFormed : submoduleEntry.WellFormed where
  isPath := (by decide : IsPath [str "m"])
  path := by decide
  sha_length := rfl
  sha := by
    change ∀ b ∈ submoduleSha, ∃ d ∈ digitValue b, d < 16
    decide +kernel
  size n hn := by cases hn

theorem submodule_leaves : Leaves submoduleRoot [([str "m"], .commit submoduleSha)] where
  mem_iff q e := by
    rw [at_submoduleRoot]
    refine ⟨fun h => ⟨h, ?_⟩, And.left⟩
    obtain ⟨-, rfl⟩ := Prod.mk.inj (List.mem_singleton.mp h)
    trivial
  nodup := List.nodup_singleton _

theorem submodule_printed :
    List.Forall₂ Printed [([str "m"], .commit submoduleSha)] [submoduleEntry] :=
  .cons ⟨.inl rfl, by decide, rfl⟩ .nil

theorem submodule_recurses : Githubfs.Recurses submoduleAnswer [] (str "5c7b") submoduleRoot := by
  have h_mode : Numeral 8 (str "160000") 0xe000 := numeral_digitsFrom (by decide +kernel)
  have h_zero : Numeral 10 (str "0") 0 := numeral_digitsFrom (by decide +kernel)
  have h_each : ∀ x ∈ [(([str "m"], GitTree.Entry.commit submoduleSha), str "160000", str "0")],
      Githubfs.Printable (Githubfs.treeEntry x.1.1 [] x.1.2, x.2) :=
    List.forall_mem_singleton.mpr
      ⟨by decide, by decide +kernel, by decide, by decide, h_mode, by decide, h_zero⟩
  exact ⟨_, ⟨fun q e => at_submoduleRoot.symm, List.pairwise_singleton _ _⟩,
    Githubfs.lists_listText h_each⟩

theorem submodule_prints :
    Gitlstree.Prints submoduleGit (str "HEAD") (str "5c7b") [submoduleLine] :=
  ⟨if_pos rfl, if_neg (by decide)⟩

/-- **A submodule is a file in one of them**, and is not there in the other. -/
theorem submodule_not_same :
    Domain submoduleRoot ∧
      Gitlstree.Prints submoduleGit (str "HEAD") (str "5c7b") [submoduleLine] ∧
      List.Forall₂ Gitlstree.IsLine [submoduleEntry] [submoduleLine] ∧
      Leaves submoduleRoot [([str "m"], .commit submoduleSha)] ∧
      List.Forall₂ Printed [([str "m"], .commit submoduleSha)] [submoduleEntry] ∧
      Githubfs.Recurses submoduleAnswer [] (str "5c7b") submoduleRoot ∧
      ¬ Same submoduleGit (str "HEAD") submoduleAnswer [] (str "5c7b") := by
  refine ⟨submodule_domain, submodule_prints, .cons submodule_isLine .nil, submodule_leaves,
    submodule_printed, submodule_recurses, fun h_same => ?_⟩
  obtain ⟨k, h_reads, -, h_agree⟩ := agreeable_of_same submodule_domain submodule_prints
    (.cons submodule_isLine .nil) (List.forall_mem_singleton.mpr submodule_wellFormed) submodule_leaves
    submodule_printed submodule_recurses h_same
  have h_k : k ≠ 0 := by
    rintro rfl
    obtain ⟨-, n, h_eq, -⟩ | ⟨h_eq, -⟩ := h_reads
    · cases h_eq
    · cases h_eq
  obtain ⟨n, rfl⟩ := Nat.exists_eq_succ_of_ne_zero h_k
  exact absurd (h_agree.commits [str "m"] submoduleSha (.head _)) (by decide)

end GitlstreeFS.SameTree
