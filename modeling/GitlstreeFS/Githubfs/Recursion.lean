import GitlstreeFS.Container.Parents
import GitlstreeFS.GitTree
import GitlstreeFS.Githubfs.Load
import GitlstreeFS.Githubfs.Trees

/-!
# Recursion here and there

A tree may come in one answer, with the paths from the root on (`Recurses`), or in one answer for each
subtree, with the paths from that subtree on (`Truncates`). `agree_iff` says for which trees the container
is the same.

The path of an entry is added as it stands in the answer. So in the second case all names end up in the
root, and the containers are the same just if nothing below the subtrees of the root is added at all.
-/

namespace GitlstreeFS.Githubfs

open DirectoryContainer Jjson

/-! ### What the server answers -/

/-- The entry of an answer, under the components of its path. -/
def treeEntry (q : List Str) (url : Str) : GitTree.Entry → TreeEntry
  | .blob mode sha size => ⟨(render q).tail, mode, .blob, sha, size, url⟩
  | .commit sha => ⟨(render q).tail, 0xe000, .commit, sha, 0, url⟩
  | .tree sha _ => ⟨(render q).tail, 0x4000, .tree, sha, 0, url⟩

/-- `t` says what there is at a path. -/
def Describes (x : List Str × GitTree.Entry) (t : TreeEntry) : Prop :=
  ∃ url, t = treeEntry x.1 url x.2

/-- The answer `s` says what there is at the paths. -/
def Lists (nodes : List (List Str × GitTree.Entry)) (s : Str) : Prop :=
  ∃ entries, List.Forall₂ Describes nodes entries ∧ Answer knownMarks entries false s

/-- It says what there is in a tree, but not in its subtrees. -/
def ListsChildren (es : List (Str × GitTree.Entry)) (s : Str) : Prop :=
  ∃ nodes, nodes.Perm (GitTree.children es) ∧ Lists nodes s

/-- Each subtree is answered with what there is in it. -/
def Served (httpFetch : Str → Str) (githubApiPrefix : Str) (es : List (Str × GitTree.Entry)) : Prop :=
  ∀ q sha es', GitTree.At es q (.tree sha es') →
    ListsChildren es' (httpFetch (fetchUrl githubApiPrefix sha false))

/-- The recursive answer is truncated, and the others are not. -/
structure Truncates (httpFetch : Str → Str) (githubApiPrefix treeHash : Str)
    (root : List (Str × GitTree.Entry)) : Prop where
  recursive : ∃ entries, Answer knownMarks entries true (httpFetch (fetchUrl githubApiPrefix treeHash true))
  top : ListsChildren root (httpFetch (fetchUrl githubApiPrefix treeHash false))
  subtrees : Served httpFetch githubApiPrefix root

/-- The recursive answer lists everything. -/
def Recurses (httpFetch : Str → Str) (githubApiPrefix treeHash : Str)
    (root : List (Str × GitTree.Entry)) : Prop :=
  ∃ nodes, GitTree.Listing root nodes ∧ Lists nodes (httpFetch (fetchUrl githubApiPrefix treeHash true))

/-- Modes are `int`s, and sizes have 63 bits. -/
def Sized (root : List (Str × GitTree.Entry)) : Prop :=
  ∀ q mode sha size, GitTree.At root q (.blob mode sha size) → mode < 0x80000000 ∧ size < 2 ^ 63

/-- In whatever order the jobs run, the container is as it is without them. -/
def Agree (httpFetch httpFetch' : Str → Str) (githubApiPrefix treeHash : Str) : Prop :=
  ∀ adds adds', Loads httpFetch githubApiPrefix [] treeHash true adds →
    Loads httpFetch' githubApiPrefix [] treeHash true adds' →
    ∃ c c', addPaths Container.empty adds = .ok c ∧ addPaths Container.empty adds' = .ok c' ∧
      ∀ s, c.look s = c'.look s

/-! ### What is added -/

variable {httpFetch httpFetch' : Str → Str} {githubApiPrefix treeHash subdir sha : Str}
  {remoteRecurse : Bool} {calls : List FileCall} {call : FileCall} {adds : List Add} {c c' : Container File}
  {root es es' : List (Str × GitTree.Entry)} {nodes : List (List Str × GitTree.Entry)}
  {entries : List TreeEntry} {q : List Str} {e : GitTree.Entry} {t : TreeEntry}

/-- The call of `add` for a file of an answer. -/
def callAdd (call : FileCall) : Option Add :=
  match call.fstype with
  | .blob => some (slash :: call.path, .file (.element call.element))
  | .tree => some (slash :: call.path, .dir)
  | .commit => none

/-- The call of `add` for an entry. -/
def nodeAdd (x : List Str × GitTree.Entry) : Option (List Str × NewFile File) :=
  match x.2 with
  | .blob mode sha size => some (x.1, .file (.element ⟨mode, sha, readSize size⟩))
  | .tree _ _ => some (x.1, .dir)
  | .commit _ => none

/-- The path as a string. -/
def toPath (a : List Str × NewFile File) : Add :=
  (render a.1, a.2)

theorem addPaths_toPath (l : List (List Str × NewFile File)) :
    addPaths c (l.map toPath) = c.addAll l := by
  induction l generalizing c with
  | nil => rfl
  | cons a l ih =>
    rw [List.map_cons, toPath, addPaths, Container.addAll]
    cases c.add (render a.1) a.2 with
    | error m => rfl
    | ok c₁ => exact ih

theorem slash_tail_render (h : q ≠ []) : slash :: (render q).tail = render q := by
  obtain ⟨n, q, rfl⟩ := List.exists_cons_of_ne_nil h
  rfl

theorem callAdd_read (h : Describes (q, e) t) (hq : q ≠ []) :
    callAdd t.read = (nodeAdd (q, e)).map toPath := by
  obtain ⟨url, rfl⟩ := h
  have h_path := slash_tail_render hq
  cases e with
  | blob mode sha size =>
    have h_read : (treeEntry q url (.blob mode sha size)).read
        = ⟨(render q).tail, mode, .blob, sha, readSize size, url⟩ := by
      rw [treeEntry, TreeEntry.read, if_pos rfl]
    rw [h_read, callAdd, nodeAdd, Option.map_some, toPath, FileCall.element, h_path]
  | commit sha => rfl
  | tree sha es =>
    have h_call : callAdd (treeEntry q url (.tree sha es)).read
        = some (slash :: (render q).tail, .dir) := rfl
    rw [h_call, h_path]
    rfl

theorem filterMap_read (h : List.Forall₂ Describes nodes entries) (h_ne : ∀ x ∈ nodes, x.1 ≠ []) :
    (entries.map TreeEntry.read).filterMap callAdd = (nodes.filterMap nodeAdd).map toPath := by
  induction h with
  | nil => rfl
  | @cons x t nodes entries h_x _ ih =>
    have h_call := callAdd_read h_x (h_ne x List.mem_cons_self)
    have h_rest := ih fun x hx => h_ne x (List.mem_cons_of_mem _ hx)
    rw [List.map_cons, List.filterMap_cons, List.filterMap_cons, h_call, h_rest]
    cases nodeAdd x with
    | none => rfl
    | some a => rfl

/-- Where the remote side recurses, the files are added one after the other. -/
theorem handles_remote : Handles httpFetch githubApiPrefix subdir true calls adds ↔
    adds = calls.filterMap callAdd := by
  constructor
  · intro h
    induction calls generalizing adds with
    | nil =>
      cases h
      rfl
    | cons call calls ih =>
      rw [List.filterMap_cons, callAdd]
      cases h with
      | blob h_type h => rw [h_type, ih h]
      | tree h_type h => rw [h_type, ih h]
      | commit h_type h => rw [h_type, ih h]
  · rintro rfl
    induction calls with
    | nil => exact .nil
    | cons call calls ih =>
      rw [List.filterMap_cons, callAdd]
      cases h_type : call.fstype with
      | blob => exact .blob h_type ih
      | tree => exact .tree h_type ih
      | commit => exact .commit h_type ih

/-- An answer that can be read. -/
theorem loads_of_parse
    (h_parse : parseTrees (httpFetch (fetchUrl githubApiPrefix treeHash remoteRecurse)) = .ok (true, calls)) :
    Loads httpFetch githubApiPrefix subdir treeHash remoteRecurse adds ↔
      Handles httpFetch githubApiPrefix subdir remoteRecurse calls adds := by
  constructor
  · intro h
    cases h with
    | read h_parse' h =>
      obtain ⟨-, rfl⟩ := Prod.mk.inj (Except.ok.inj (h_parse'.symm.trans h_parse))
      exact h
    | retry h_parse' h =>
      rw [h_parse] at h_parse'
      cases h_parse'
  · intro h
    exact .read h_parse h

/-- An answer that is truncated. -/
theorem loads_of_truncated
    (h_parse : parseTrees (httpFetch (fetchUrl githubApiPrefix treeHash remoteRecurse)) = .ok (false, [])) :
    Loads httpFetch githubApiPrefix subdir treeHash remoteRecurse adds ↔
      Loads httpFetch githubApiPrefix subdir treeHash false adds := by
  constructor
  · intro h
    cases h with
    | read h_parse' h =>
      rw [h_parse] at h_parse'
      cases h_parse'
    | retry h_parse' h => exact h
  · intro h
    exact .retry h_parse h

/-! ### Reading the answers -/

theorem forall_described {P : TreeEntry → Prop} (h : List.Forall₂ Describes nodes entries)
    (hP : ∀ x ∈ nodes, ∀ t, Describes x t → P t) : ∀ t ∈ entries, P t := by
  induction h with
  | nil => exact fun t ht => absurd ht List.not_mem_nil
  | @cons x t nodes entries h_x _ ih =>
    rw [List.forall_mem_cons]
    exact ⟨hP x List.mem_cons_self t h_x, ih fun x hx => hP x (List.mem_cons_of_mem _ hx)⟩

theorem Describes.sized (h : Describes (q, e) t) (h_sized : Sized root) (h_at : GitTree.At root q e) :
    t.Sized := by
  obtain ⟨url, rfl⟩ := h
  cases e with
  | blob mode sha size =>
    obtain ⟨h_mode, h_size⟩ := h_sized q mode sha size h_at
    exact ⟨h_mode, fun _ => h_size⟩
  | commit sha => exact ⟨(by decide : 0xe000 < 0x80000000), fun h => (by cases h)⟩
  | tree sha es => exact ⟨(by decide : 0x4000 < 0x80000000), fun h => (by cases h)⟩

/-- An answer that lists entries of a tree is read. -/
theorem Lists.parse {s : Str} (h : Lists nodes s) (h_sized : Sized root)
    (h_at : ∀ x ∈ nodes, GitTree.At root x.1 x.2) :
    ∃ entries, List.Forall₂ Describes nodes entries ∧
      parseTrees s = .ok (true, entries.map TreeEntry.read) := by
  obtain ⟨entries, h_entries, h_answer⟩ := h
  refine ⟨entries, h_entries, parseTrees_read ?_ h_answer⟩
  exact forall_described h_entries fun x hx t h_t => h_t.sized h_sized (h_at x hx)

/-- **One recursive request** adds what the answer lists, in this order. -/
theorem loads_remote (h : Lists nodes (httpFetch (fetchUrl githubApiPrefix treeHash true)))
    (h_sized : Sized root) (h_at : ∀ x ∈ nodes, GitTree.At root x.1 x.2) :
    Loads httpFetch githubApiPrefix subdir treeHash true adds ↔
      adds = (nodes.filterMap nodeAdd).map toPath := by
  obtain ⟨entries, h_entries, h_parse⟩ := h.parse h_sized h_at
  rw [loads_of_parse h_parse, handles_remote,
    filterMap_read h_entries fun x hx => (h_at x hx).ne_nil]

/-! ### Jobs -/

/-- The answer for a tree alone: names, and subtrees of this tree. -/
theorem exists_calls (h : ListsChildren es (httpFetch (fetchUrl githubApiPrefix treeHash false)))
    (h_sized : Sized es) :
    ∃ (nodes : List (List Str × GitTree.Entry)) (calls : List FileCall),
      nodes.Perm (GitTree.children es) ∧
      parseTrees (httpFetch (fetchUrl githubApiPrefix treeHash false)) = .ok (true, calls) ∧
      calls.filterMap callAdd = (nodes.filterMap nodeAdd).map toPath ∧
      ∀ call ∈ calls, ∃ n e, (n, e) ∈ es ∧ call.path = n ∧
        ∃ url, call = (treeEntry [n] url e).read := by
  obtain ⟨nodes, h_perm, h_lists⟩ := h
  have h_mem : ∀ x ∈ nodes, x ∈ GitTree.children es := fun x hx => h_perm.mem_iff.mp hx
  have h_at : ∀ x ∈ nodes, GitTree.At es x.1 x.2 := fun x hx => GitTree.at_of_mem_children (h_mem x hx)
  obtain ⟨entries, h_entries, h_parse⟩ := h_lists.parse h_sized h_at
  refine ⟨nodes, _, h_perm, h_parse, filterMap_read h_entries fun x hx => (h_at x hx).ne_nil, ?_⟩
  intro call h_call
  obtain ⟨t, ht, rfl⟩ := List.mem_map.mp h_call
  refine forall_described (P := fun t => ∃ n e, (n, e) ∈ es ∧ t.read.path = n ∧
    ∃ url, t.read = (treeEntry [n] url e).read) h_entries ?_ t ht
  rintro ⟨q, e⟩ hx t ⟨url, rfl⟩
  obtain ⟨n, h_n, rfl⟩ := GitTree.mem_children.mp (h_mem _ hx)
  have h_path : (treeEntry [n] url e).path = n := by
    have h_render : (render [n]).tail = n := List.append_nil n
    cases e with
    | blob mode sha size => exact h_render
    | commit sha => exact h_render
    | tree sha es => exact h_render
  exact ⟨n, e, h_n, h_path, url, rfl⟩

/-- Where the jobs add nothing, the files are added one after the other. -/
theorem handles_flat (h_jobs : ∀ call ∈ calls, call.fstype = .tree → ∀ subdir jobAdds,
      Loads httpFetch githubApiPrefix subdir call.sha false jobAdds → jobAdds = [])
    (h : Handles httpFetch githubApiPrefix subdir false calls adds) : adds = calls.filterMap callAdd := by
  induction calls generalizing adds with
  | nil =>
    cases h
    rfl
  | cons call calls ih =>
    rw [List.forall_mem_cons] at h_jobs
    rw [List.filterMap_cons, callAdd]
    cases h with
    | blob h_type h => rw [h_type, ih h_jobs.2 h]
    | job h_type h_job h h_all =>
      rw [h_jobs.1 h_type _ _ h_job] at h_all
      rw [h_type, h_all.eq_of_nil_left, ih h_jobs.2 h]
    | commit h_type h => rw [h_type, ih h_jobs.2 h]

/-- No path has a second slash. -/
def OneSlash (adds : List Add) : Prop :=
  ∀ a ∈ adds, a.1.count slash ≤ 1

theorem oneSlash_cons {n : Str} {x : NewFile File} (hn : slash ∉ n) (h : OneSlash adds) :
    OneSlash ((slash :: n, x) :: adds) := by
  refine List.forall_mem_cons.mpr ⟨?_, h⟩
  rw [List.count_cons_self, List.count_eq_zero_of_not_mem hn]

/-- The jobs may run one after the other. -/
theorem exists_handles (subdir : Str) (h_jobs : ∀ call ∈ calls, call.fstype = .tree → ∀ subdir, ∃ jobAdds,
      Loads httpFetch githubApiPrefix subdir call.sha false jobAdds ∧ OneSlash jobAdds)
    (h_paths : ∀ call ∈ calls, slash ∉ call.path) :
    ∃ adds, Handles httpFetch githubApiPrefix subdir false calls adds ∧ OneSlash adds := by
  induction calls with
  | nil => exact ⟨[], .nil, fun a ha => absurd ha List.not_mem_nil⟩
  | cons call calls ih =>
    rw [List.forall_mem_cons] at h_jobs h_paths
    obtain ⟨adds, h_adds, h_slash⟩ := ih h_jobs.2 h_paths.2
    cases h_type : call.fstype with
    | blob => exact ⟨_, .blob h_type h_adds, oneSlash_cons h_paths.1 h_slash⟩
    | tree =>
      obtain ⟨jobAdds, h_job, h_job_slash⟩ := h_jobs.1 h_type (subdir ++ call.path ++ str "/")
      refine ⟨_, .job h_type h_job h_adds (.append _ _), oneSlash_cons h_paths.1 ?_⟩
      exact List.forall_mem_append.mpr ⟨h_job_slash, h_slash⟩
    | commit => exact ⟨adds, .commit h_type h_adds, h_slash⟩

/-- **The names of the subtrees are lost**: what is added in the jobs goes into the root. -/
theorem exists_loads (es : List (Str × GitTree.Entry)) (h_wf : GitTree.WellFormed es) (h_sized : Sized es)
    (h_served : Served httpFetch githubApiPrefix es) {treeHash : Str}
    (h : ListsChildren es (httpFetch (fetchUrl githubApiPrefix treeHash false))) (subdir : Str) :
    ∃ adds, Loads httpFetch githubApiPrefix subdir treeHash false adds ∧ OneSlash adds := by
  obtain ⟨nodes, calls, -, h_parse, -, h_calls⟩ := exists_calls h h_sized
  have h_paths : ∀ call ∈ calls, slash ∉ call.path := by
    intro call h_call
    obtain ⟨n, e, h_mem, h_path, -⟩ := h_calls call h_call
    rw [h_path]
    exact (h_wf.root.isName _ h_mem).2
  have h_jobs : ∀ call ∈ calls, call.fstype = .tree → ∀ subdir, ∃ jobAdds,
      Loads httpFetch githubApiPrefix subdir call.sha false jobAdds ∧ OneSlash jobAdds := by
    intro call h_call h_type subdir
    obtain ⟨n, e, h_mem, -, url, rfl⟩ := h_calls call h_call
    cases e with
    | blob mode sha size => cases h_type
    | commit sha => cases h_type
    | tree sha es' =>
      have h_lt := GitTree.sizeOf_lt_of_mem h_mem
      exact exists_loads es' (h_wf.of_mem h_mem)
        (fun q mode sha size h_at => h_sized (n :: q) mode sha size (.under h_mem h_at))
        (fun q sha es'' h_at => h_served (n :: q) sha es'' (.under h_mem h_at))
        (h_served [n] sha es' (.here h_mem)) subdir
  obtain ⟨adds, h_adds, h_slash⟩ := exists_handles subdir h_jobs h_paths
  exact ⟨adds, (loads_of_parse h_parse).mpr h_adds, h_slash⟩
termination_by sizeOf es

/-! ### The containers -/

/-- The paths that are added are among those of the entries. -/
theorem fst_filterMap_nodeAdd (nodes : List (List Str × GitTree.Entry)) :
    ((nodes.filterMap nodeAdd).map Prod.fst).Sublist (nodes.map Prod.fst) := by
  induction nodes with
  | nil => exact .slnil
  | cons x nodes ih =>
    obtain ⟨q, e⟩ := x
    rw [List.filterMap_cons, List.map_cons]
    cases e with
    | blob mode sha size => exact ih.cons_cons q
    | commit sha => exact ih.cons q
    | tree sha es => exact ih.cons_cons q

theorem mem_filterMap_nodeAdd {x : NewFile File} :
    (q, x) ∈ nodes.filterMap nodeAdd ↔ ∃ e, (q, e) ∈ nodes ∧ nodeAdd (q, e) = some (q, x) := by
  rw [List.mem_filterMap]
  constructor
  · rintro ⟨⟨p, e⟩, h_mem, h_add⟩
    have h_fst : p = q := by
      cases e with
      | blob mode sha size => exact (Prod.mk.inj (Option.some.inj h_add)).1
      | commit sha => cases h_add
      | tree sha es => exact (Prod.mk.inj (Option.some.inj h_add)).1
    subst h_fst
    exact ⟨e, h_mem, h_add⟩
  · rintro ⟨e, h_mem, h_add⟩
    exact ⟨(q, e), h_mem, h_add⟩

/-- A recursive answer adds each directory before what is in it. -/
theorem parentsFirst_listing (h : GitTree.Listing root nodes) (h_wf : GitTree.WellFormed root) :
    ParentsFirst (nodes.filterMap nodeAdd) := by
  suffices h_before : ∀ before behind, nodes = before ++ behind → ParentsFirst (before.filterMap nodeAdd) from
    h_before nodes [] (List.append_nil nodes).symm
  intro before
  induction before using List.reverseRecOn with
  | nil => exact fun behind _ => .nil
  | append_singleton before x ih =>
    intro behind h_eq
    obtain ⟨p, e⟩ := x
    rw [List.append_assoc, List.singleton_append] at h_eq
    have h_parents := ih _ h_eq
    have h_at : GitTree.At root p e := by
      rw [← h.mem_iff, h_eq]
      exact List.mem_append_right before List.mem_cons_self
    have h_path := h_at.isPath h_wf
    obtain ⟨q, n, rfl⟩ := (List.eq_nil_or_concat' p).resolve_left h_path.ne_nil
    have h_new : q ++ [n] ∉ (before.filterMap nodeAdd).map Prod.fst := by
      have h_nodup := h.nodup
      rw [h_eq, List.map_append, List.map_cons, List.nodup_append] at h_nodup
      exact fun h_mem => h_nodup.2.2 _ ((fst_filterMap_nodeAdd before).subset h_mem) _ List.mem_cons_self rfl
    have h_parent : q = [] ∨ (q, .dir) ∈ before.filterMap nodeAdd := by
      by_cases hq : q = []
      · exact .inl hq
      · rw [h_eq] at h
        obtain ⟨sha, es', h_tree⟩ := h.parent hq
        exact .inr (mem_filterMap_nodeAdd.mpr ⟨_, h_tree, rfl⟩)
    rw [List.filterMap_append, List.filterMap_cons, List.filterMap_nil]
    cases e with
    | blob mode sha size => exact .snoc h_parents h_path h_new h_parent
    | commit sha => rwa [nodeAdd, List.append_nil]
    | tree sha es => exact .snoc h_parents h_path h_new h_parent

/-- **What a recursive answer leaves**: the entries at their paths. -/
theorem exists_remote (h : Recurses httpFetch githubApiPrefix treeHash root)
    (h_wf : GitTree.WellFormed root) (h_sized : Sized root) :
    ∃ nodes : List (List Str × GitTree.Entry), GitTree.Listing root nodes ∧
      (∀ subdir adds, Loads httpFetch githubApiPrefix subdir treeHash true adds ↔
        adds = (nodes.filterMap nodeAdd).map toPath) ∧
      ∃ c, addPaths Container.empty ((nodes.filterMap nodeAdd).map toPath) = .ok c ∧
        Inv (added (nodes.filterMap nodeAdd)) c := by
  obtain ⟨nodes, h_listing, h_lists⟩ := h
  have h_at : ∀ x ∈ nodes, GitTree.At root x.1 x.2 := fun x hx => (h_listing.mem_iff _ _).mp hx
  refine ⟨nodes, h_listing, fun subdir adds => loads_remote h_lists h_sized h_at, ?_⟩
  rw [addPaths_toPath]
  exact (parentsFirst_listing h_listing h_wf).exists_inv

theorem length_le_count (q : List Str) : q.length ≤ (render q).count slash := by
  induction q with
  | nil => exact Nat.zero_le _
  | cons n q ih =>
    have h_render : render (n :: q) = slash :: (n ++ render q) := rfl
    rw [h_render, List.count_cons_self, List.count_append, List.length_cons]
    omega

theorem keys_addPaths (h : Keys (fun s => s.count slash ≤ 1) c) (h_slash : OneSlash adds)
    (h_add : addPaths c adds = .ok c') : Keys (fun s => s.count slash ≤ 1) c' := by
  have h_up (s : Str) (hs : s.count slash ≤ 1) : (dirName s).count slash ≤ 1 := by
    rw [dirName]
    split
    · exact Nat.zero_le _
    · exact ((List.take_sublist _ s).count_le slash).trans hs
  induction adds generalizing c with
  | nil =>
    obtain rfl := Except.ok.inj h_add
    exact h
  | cons a adds ih =>
    obtain ⟨path, x⟩ := a
    obtain ⟨h_path, h_slash⟩ := List.forall_mem_cons.mp h_slash
    rw [addPaths] at h_add
    split at h_add
    · cases h_add
    · next c₁ h_first => exact ih (h.add h_up h_path h_first) h_slash h_add

/-- Below the subtrees of the root there are commits only. -/
def Shallow (root : List (Str × GitTree.Entry)) : Prop :=
  ∀ q e, GitTree.At root q e → 2 ≤ q.length → ∃ sha, e = .commit sha

/-- Then the jobs add nothing. -/
theorem loads_shallow (h : Truncates httpFetch githubApiPrefix treeHash root) (h_sized : Sized root)
    (h_shallow : Shallow root) (h_loads : Loads httpFetch githubApiPrefix subdir treeHash true adds) :
    ∃ nodes : List (List Str × GitTree.Entry), nodes.Perm (GitTree.children root) ∧
      adds = (nodes.filterMap nodeAdd).map toPath := by
  obtain ⟨entries, h_truncated⟩ := h.recursive
  obtain ⟨nodes, calls, h_perm, h_parse, h_adds, h_calls⟩ := exists_calls h.top h_sized
  rw [loads_of_truncated (parseTrees_truncated h_truncated), loads_of_parse h_parse] at h_loads
  refine ⟨nodes, h_perm, ?_⟩
  rw [← h_adds]
  refine handles_flat ?_ h_loads
  intro call h_call h_type subdir jobAdds h_job
  obtain ⟨n, e, h_mem, -, url, rfl⟩ := h_calls call h_call
  cases e with
  | blob mode sha size => cases h_type
  | commit sha => cases h_type
  | tree sha es' =>
    have h_at := GitTree.At.here h_mem
    obtain ⟨_, calls', -, h_parse', -, h_calls'⟩ := exists_calls (h.subtrees _ _ _ h_at)
      fun q mode sha size h_below => h_sized (n :: q) mode sha size (.under h_mem h_below)
    change Loads httpFetch githubApiPrefix subdir sha false jobAdds at h_job
    rw [loads_of_parse h_parse'] at h_job
    -- everything there is a commit, and for a commit nothing is done
    have h_commits : ∀ call ∈ calls', call.fstype = .commit := by
      intro call h_call
      obtain ⟨m, e, h_mem', -, url', rfl⟩ := h_calls' call h_call
      obtain ⟨sha', rfl⟩ := h_shallow [n, m] e (.under h_mem (.here h_mem')) (le_refl _)
      rfl
    have h_flat := handles_flat (fun call h_call h_type => by
      rw [h_commits call h_call] at h_type
      cases h_type) h_job
    rw [h_flat, List.filterMap_eq_nil_iff]
    intro call h_call
    rw [callAdd, h_commits call h_call]

/-- So it is the same. -/
theorem agree_of_shallow (h : Truncates httpFetch githubApiPrefix treeHash root)
    (h' : Recurses httpFetch' githubApiPrefix treeHash root) (h_wf : GitTree.WellFormed root)
    (h_sized : Sized root) (h_shallow : Shallow root) :
    Agree httpFetch httpFetch' githubApiPrefix treeHash := by
  intro adds adds' h_loads h_loads'
  obtain ⟨nodes', h_listing, h_remote, c', h_c', h_inv'⟩ := exists_remote h' h_wf h_sized
  obtain ⟨nodes, h_perm, rfl⟩ := loads_shallow h h_sized h_shallow h_loads
  rw [(h_remote _ _).mp h_loads']
  have h_nodup : ((nodes.filterMap nodeAdd).map Prod.fst).Nodup := by
    refine (fst_filterMap_nodeAdd nodes).nodup ?_
    exact (h_perm.map Prod.fst).nodup_iff.mpr h_wf.root.nodup_children
  have h_parents : ParentsFirst (nodes.filterMap nodeAdd) := by
    refine parentsFirst_names (fun a ha => ?_) h_nodup
    obtain ⟨q, x⟩ := a
    obtain ⟨e, h_mem, -⟩ := mem_filterMap_nodeAdd.mp ha
    obtain ⟨n, h_n, rfl⟩ := GitTree.mem_children.mp (h_perm.mem_iff.mp h_mem)
    exact ⟨n, h_wf.root.isName _ h_n, rfl⟩
  obtain ⟨c, h_c, h_inv⟩ := h_parents.exists_inv
  have h_same : added (nodes.filterMap nodeAdd) = added (nodes'.filterMap nodeAdd) := by
    refine added_congr ((fst_filterMap_nodeAdd nodes').nodup h_listing.nodup) fun a => ?_
    obtain ⟨q, x⟩ := a
    rw [mem_filterMap_nodeAdd, mem_filterMap_nodeAdd]
    constructor
    · rintro ⟨e, h_mem, h_add⟩
      have h_at := GitTree.at_of_mem_children (h_perm.mem_iff.mp h_mem)
      exact ⟨e, (h_listing.mem_iff _ _).mpr h_at, h_add⟩
    · rintro ⟨e, h_mem, h_add⟩
      have h_at := (h_listing.mem_iff _ _).mp h_mem
      refine ⟨e, h_perm.mem_iff.mpr (h_at.mem_children ?_), h_add⟩
      by_contra h_length
      obtain ⟨sha, rfl⟩ := h_shallow q e h_at (not_lt.mp h_length)
      cases h_add
  rw [h_same] at h_inv
  exact ⟨c, c', by rw [addPaths_toPath, h_c], h_c', h_inv.look_eq h_inv'⟩

/-- Where it is the same, nothing was to be added below the subtrees of the root. -/
theorem shallow_of_agree (h : Truncates httpFetch githubApiPrefix treeHash root)
    (h' : Recurses httpFetch' githubApiPrefix treeHash root) (h_wf : GitTree.WellFormed root)
    (h_sized : Sized root) (h_agree : Agree httpFetch httpFetch' githubApiPrefix treeHash) :
    Shallow root := by
  intro q e h_at h_length
  obtain ⟨nodes', h_listing, h_remote, c', h_c', h_inv'⟩ := exists_remote h' h_wf h_sized
  obtain ⟨entries, h_truncated⟩ := h.recursive
  -- one run in which the jobs run one after the other
  obtain ⟨adds, h_loads, h_slash⟩ := exists_loads root h_wf h_sized h.subtrees h.top []
  obtain ⟨c, c₁, h_c, h_c₁, h_look⟩ := h_agree _ _
    ((loads_of_truncated (parseTrees_truncated h_truncated)).mpr h_loads) ((h_remote _ _).mpr rfl)
  obtain rfl := Except.ok.inj (h_c₁.symm.trans h_c')
  have h_keys := keys_addPaths (keys_empty (by decide)) h_slash h_c
  have h_none : c.look (render q) = none := by
    have h_files : c.files (render q) = none := by
      by_contra h_key
      have h_count := h_keys _ h_key
      have h_le := length_le_count q
      omega
    rw [Container.look, Container.get, h_files]
    rfl
  rw [h_look, h_inv'.look (h_at.isPath h_wf), added_eq_none_iff] at h_none
  have h_mem := (h_listing.mem_iff _ _).mpr h_at
  have h_added {x : NewFile File} (h_add : nodeAdd (q, e) = some (q, x)) : False :=
    h_none (List.mem_map.mpr ⟨_, mem_filterMap_nodeAdd.mpr ⟨e, h_mem, h_add⟩, rfl⟩)
  cases e with
  | blob mode sha size => exact (h_added rfl).elim
  | commit sha => exact ⟨sha, rfl⟩
  | tree sha es => exact (h_added rfl).elim

/-- **When the recursion here comes to the same as the recursion there.** -/
theorem agree_iff (httpFetch httpFetch' : Str → Str) (githubApiPrefix treeHash : Str)
    (root : List (Str × GitTree.Entry)) (h_wf : GitTree.WellFormed root) (h_sized : Sized root)
    (h : Truncates httpFetch githubApiPrefix treeHash root)
    (h' : Recurses httpFetch' githubApiPrefix treeHash root) :
    Agree httpFetch httpFetch' githubApiPrefix treeHash ↔ Shallow root :=
  ⟨shallow_of_agree h h' h_wf h_sized, agree_of_shallow h h' h_wf h_sized⟩

/-! ### A file in a directory -/

/-- The text of an answer, given the texts of modes and sizes. -/
def listText (xs : List ((List Str × GitTree.Entry) × Str × Str)) : Str :=
  answerText (xs.map fun x => (treeEntry x.1.1 [] x.1.2, x.2)) false

theorem lists_listText {xs : List ((List Str × GitTree.Entry) × Str × Str)}
    (h : ∀ x ∈ xs, Printable (treeEntry x.1.1 [] x.1.2, x.2)) : Lists (xs.map Prod.fst) (listText xs) := by
  refine ⟨_, ?_, answer_answerText (fun y hy => ?_) false⟩
  · rw [List.map_map, List.forall₂_map_left_iff, List.forall₂_map_right_iff, List.forall₂_same]
    exact fun x _ => ⟨[], rfl⟩
  · obtain ⟨x, hx, rfl⟩ := List.mem_map.mp hy
    exact h x hx

/-- A file. -/
def file : GitTree.Entry :=
  .blob 0x81a4 (str "e69d") 3

/-- A directory with this file. -/
def directory : GitTree.Entry :=
  .tree (str "5c7b") [(str "f", file)]

/-- A directory with this directory. -/
def twoLevels : List (Str × GitTree.Entry) :=
  [(str "d", directory)]

/-- Its listing. -/
def twoLevelsNodes : List ((List Str × GitTree.Entry) × Str × Str) :=
  [(([str "d"], directory), str "040000", str "0"), (([str "d", str "f"], file), str "100644", str "3")]

/-- Answers without subtrees. -/
def truncating (url : Str) : Str :=
  if url = fetchUrl [] (str "4b82") true then answerText [] true
  else if url = fetchUrl [] (str "4b82") false then
    listText [(([str "d"], directory), str "040000", str "0")]
  else listText [(([str "f"], file), str "100644", str "3")]

/-- The answer with subtrees. -/
def recursing (_ : Str) : Str :=
  listText twoLevelsNodes

theorem at_twoLevels {q : List Str} {e : GitTree.Entry} : GitTree.At twoLevels q e ↔
    (q, e) ∈ [([str "d"], directory), ([str "d", str "f"], file)] := by
  rw [List.mem_pair, Prod.mk.injEq, Prod.mk.injEq]
  constructor
  · intro h
    cases h with
    | here h =>
      obtain ⟨rfl, rfl⟩ := Prod.mk.inj (List.mem_singleton.mp h)
      exact .inl ⟨rfl, rfl⟩
    | under h h_at =>
      obtain ⟨rfl, h_tree⟩ := Prod.mk.inj (List.mem_singleton.mp h)
      obtain ⟨rfl, rfl⟩ := GitTree.Entry.tree.inj h_tree
      cases h_at with
      | here h =>
        obtain ⟨rfl, rfl⟩ := Prod.mk.inj (List.mem_singleton.mp h)
        exact .inr ⟨rfl, rfl⟩
      | under h h_at => cases (Prod.mk.inj (List.mem_singleton.mp h)).2
  · rintro (⟨rfl, rfl⟩ | ⟨rfl, rfl⟩)
    · exact .here (.head _)
    · exact .under (.head _) (.here (.head _))

theorem twoLevels_wellFormed : GitTree.WellFormed twoLevels := by
  have h_named (n : Str) (e : GitTree.Entry) (h : IsName n) : GitTree.Named [(n, e)] :=
    ⟨fun x hx => by rwa [List.mem_singleton.mp hx], List.nodup_singleton _⟩
  refine ⟨h_named _ _ (by decide), fun q sha es' h_at => ?_⟩
  rw [at_twoLevels, List.mem_pair, Prod.mk.injEq, Prod.mk.injEq] at h_at
  obtain ⟨-, h_eq⟩ | ⟨-, h_eq⟩ := h_at
  · obtain ⟨-, rfl⟩ := GitTree.Entry.tree.inj h_eq
    exact h_named _ _ (by decide)
  · cases h_eq

theorem twoLevels_sized : Sized twoLevels := by
  intro q mode sha size h_at
  rw [at_twoLevels, List.mem_pair, Prod.mk.injEq, Prod.mk.injEq] at h_at
  obtain ⟨-, h_eq⟩ | ⟨-, h_eq⟩ := h_at
  · cases h_eq
  · obtain ⟨rfl, -, rfl⟩ := GitTree.Entry.blob.inj h_eq
    exact ⟨by decide, by decide⟩

theorem printable_twoLevels : ∀ x ∈ twoLevelsNodes, Printable (treeEntry x.1.1 [] x.1.2, x.2) := by
  have h_directory : Numeral 8 (str "040000") 0x4000 := numeral_digitsFrom (by decide +kernel)
  have h_file : Numeral 8 (str "100644") 0x81a4 := numeral_digitsFrom (by decide +kernel)
  have h_zero : Numeral 10 (str "0") 0 := numeral_digitsFrom (by decide +kernel)
  have h_three : Numeral 10 (str "3") 3 := numeral_digitsFrom (by decide +kernel)
  rw [twoLevelsNodes, List.forall_mem_cons, List.forall_mem_singleton]
  exact ⟨⟨by decide, by decide, by decide, by decide, h_directory, by decide, h_zero⟩,
    ⟨by decide, by decide, by decide, by decide, h_file, by decide, h_three⟩⟩

theorem recursing_recurses : Recurses recursing [] (str "4b82") twoLevels := by
  refine ⟨_, ⟨fun q e => at_twoLevels.symm, ?_⟩, lists_listText printable_twoLevels⟩
  exact List.pairwise_pair.mpr (by decide : ¬ [str "d", str "f"] <+: [str "d"])

theorem truncating_truncates : Truncates truncating [] (str "4b82") twoLevels := by
  have h_second : fetchUrl [] (str "4b82") false ≠ fetchUrl [] (str "4b82") true := by decide
  have h_third (r : Bool) : fetchUrl [] (str "5c7b") false ≠ fetchUrl [] (str "4b82") r := by
    cases r with
    | true => decide
    | false => decide
  obtain ⟨h_directory, h_below⟩ := List.forall_mem_cons.mp printable_twoLevels
  have h_file := h_below _ (List.mem_singleton_self _)
  refine ⟨⟨[], ?_⟩, ?_, fun q sha es' h_at => ?_⟩
  · rw [truncating, if_pos rfl]
    have h_none : ∀ x ∈ ([] : List (TreeEntry × Str × Str)), Printable x :=
      fun x hx => absurd hx List.not_mem_nil
    exact answer_answerText h_none true
  · rw [truncating, if_neg h_second, if_pos rfl]
    exact ⟨_, .refl _, lists_listText (List.forall_mem_singleton.mpr h_directory)⟩
  · rw [at_twoLevels, List.mem_pair, Prod.mk.injEq, Prod.mk.injEq] at h_at
    obtain ⟨-, h_eq⟩ | ⟨-, h_eq⟩ := h_at
    · obtain ⟨rfl, rfl⟩ := GitTree.Entry.tree.inj h_eq
      rw [truncating, if_neg (h_third true), if_neg (h_third false)]
      have h_printable : Printable (treeEntry [str "f"] [] file, str "100644", str "3") :=
        ⟨by decide, h_file.sha, h_file.url, h_file.mode_ne, h_file.mode, h_file.size_ne, h_file.size⟩
      have h_each : ∀ x ∈ [(([str "f"], file), str "100644", str "3")],
          Printable (treeEntry x.1.1 [] x.1.2, x.2) := List.forall_mem_singleton.mpr h_printable
      exact ⟨_, .refl _, lists_listText h_each⟩
    · cases h_eq

theorem agree_iff_twoLevels : Agree truncating recursing [] (str "4b82") ↔ Shallow twoLevels :=
  agree_iff truncating recursing [] (str "4b82") twoLevels twoLevels_wellFormed twoLevels_sized
    truncating_truncates recursing_recurses

/-- **The file is not in its directory**, where it has to be asked for. -/
theorem twoLevels_not_agree :
    GitTree.WellFormed twoLevels ∧ Sized twoLevels ∧ Truncates truncating [] (str "4b82") twoLevels ∧
      Recurses recursing [] (str "4b82") twoLevels ∧ ¬ Agree truncating recursing [] (str "4b82") := by
  refine ⟨twoLevels_wellFormed, twoLevels_sized, truncating_truncates, recursing_recurses, fun h_agree => ?_⟩
  have h_shallow := shallow_of_agree truncating_truncates recursing_recurses twoLevels_wellFormed
    twoLevels_sized h_agree
  obtain ⟨sha, h_eq⟩ := h_shallow _ file (at_twoLevels.mpr (.tail _ (.head _))) (by decide)
  cases h_eq

end GitlstreeFS.Githubfs
