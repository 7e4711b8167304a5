import GitlstreeFS.Effect.Spawn
import GitlstreeFS.Githubfs.Recursion

/-!
# Loading ends, or goes on for ever

A call of `LoadDirectoryInternal` makes one request. Then it calls itself: again for the same tree, if the
answer is truncated, or for each subtree in a job. So a run is one of tasks that start tasks, as in
`Effect.Spawn`, and `returns_iff` says that this is the same as to have a run in `Loads`.

The second call asks without `recursive`, but the call that it makes if this answer is truncated too does
the same again. `loadFinishes_iff` says when this does not happen.
-/

namespace GitlstreeFS.Githubfs

open Effect Jjson

/-! ### Requests -/

/-- A call of `LoadDirectoryInternal`, which makes one request. -/
structure Request where
  treeHash : Str
  remoteRecurse : Bool
  deriving DecidableEq, Repr

/-- The subtrees in an answer. -/
def subtreeCalls (calls : List FileCall) : List FileCall :=
  calls.filter fun call => call.fstype = .tree

section Requests

variable (httpFetch : Str → Str) (githubApiPrefix : Str)

/-- The calls that a call makes: the retry, or the jobs. With an answer that `ParseTrees` does not survive
there are none. -/
def Request.next (r : Request) : Option (List Request) :=
  match parseTrees (httpFetch (fetchUrl githubApiPrefix r.treeHash r.remoteRecurse)) with
  | .error _ => none
  | .ok (false, _) => some [⟨r.treeHash, false⟩]
  | .ok (true, calls) =>
    some (if r.remoteRecurse then [] else (subtreeCalls calls).map fun call => ⟨call.sha, false⟩)

/-- In every run there are only so many requests, and all calls return. -/
def LoadFinishes (treeHash : Str) : Prop :=
  Spawn.Finishes (Request.next httpFetch githubApiPrefix) ⟨treeHash, true⟩

end Requests

variable {httpFetch : Str → Str} {githubApiPrefix treeHash subdir sha sha' : Str} {remoteRecurse : Bool}
  {calls : List FileCall} {adds : List Add}

theorem next_of_truncated
    (h : parseTrees (httpFetch (fetchUrl githubApiPrefix treeHash remoteRecurse)) = .ok (false, calls)) :
    Request.next httpFetch githubApiPrefix ⟨treeHash, remoteRecurse⟩ = some [⟨treeHash, false⟩] := by
  rw [Request.next, h]

theorem next_of_recursive
    (h : parseTrees (httpFetch (fetchUrl githubApiPrefix treeHash true)) = .ok (true, calls)) :
    Request.next httpFetch githubApiPrefix ⟨treeHash, true⟩ = some [] := by
  rw [Request.next, h]
  rfl

theorem next_of_jobs
    (h : parseTrees (httpFetch (fetchUrl githubApiPrefix treeHash false)) = .ok (true, calls)) :
    Request.next httpFetch githubApiPrefix ⟨treeHash, false⟩
      = some ((subtreeCalls calls).map fun call => ⟨call.sha, false⟩) := by
  rw [Request.next, h]
  rfl

/-! ### Runs of both kinds -/

theorem subtreeCalls_tree {call : FileCall} (h : call.fstype = .tree) :
    subtreeCalls (call :: calls) = call :: subtreeCalls calls := by
  rw [subtreeCalls, List.filter_cons, if_pos (decide_eq_true h)]
  rfl

theorem subtreeCalls_other {call : FileCall} (h : call.fstype ≠ .tree) :
    subtreeCalls (call :: calls) = subtreeCalls calls := by
  rw [subtreeCalls, List.filter_cons, if_neg fun h_type => h (of_decide_eq_true h_type)]
  rfl

/-- The jobs can be run one after the other. -/
theorem exists_handles_of_jobs (subdir : Str) (h : ∀ call ∈ subtreeCalls calls, ∀ subdir,
    ∃ adds, Loads httpFetch githubApiPrefix subdir call.sha false adds) :
    ∃ adds, Handles httpFetch githubApiPrefix subdir false calls adds := by
  induction calls with
  | nil => exact ⟨[], .nil⟩
  | cons call calls ih =>
    cases h_type : call.fstype with
    | blob =>
      rw [subtreeCalls_other (by rw [h_type]; decide)] at h
      obtain ⟨adds, h_adds⟩ := ih h
      exact ⟨_, .blob h_type h_adds⟩
    | commit =>
      rw [subtreeCalls_other (by rw [h_type]; decide)] at h
      obtain ⟨adds, h_adds⟩ := ih h
      exact ⟨_, .commit h_type h_adds⟩
    | tree =>
      rw [subtreeCalls_tree h_type, List.forall_mem_cons] at h
      obtain ⟨adds, h_adds⟩ := ih h.2
      obtain ⟨jobAdds, h_job⟩ := h.1 (subdir ++ call.path ++ str "/")
      exact ⟨_, .job h_type h_job h_adds (.append _ _)⟩

/-- Nothing is added from a truncated answer. -/
theorem calls_of_truncated {s : Str} (h : parseTrees s = .ok (false, calls)) : calls = [] := by
  rw [parseTrees] at h
  split at h
  · cases h
  · cases h
  · obtain ⟨flag, -, h⟩ := bind_eq_ok_iff.mp h
    split at h
    · exact (Prod.mk.inj (Except.ok.inj h)).2.symm
    · obtain ⟨tree, -, h⟩ := bind_eq_ok_iff.mp h
      obtain ⟨files, -, h⟩ := bind_eq_ok_iff.mp h
      obtain ⟨calls', -, h⟩ := bind_eq_ok_iff.mp h
      cases h

theorem exists_loads_of_returns {r : Request} (h : Spawn.Returns (Request.next httpFetch githubApiPrefix) r) :
    ∀ subdir, ∃ adds, Loads httpFetch githubApiPrefix subdir r.treeHash r.remoteRecurse adds := by
  induction h with
  | @mk r new h_next _ ih =>
    intro subdir
    cases h_parse : parseTrees (httpFetch (fetchUrl githubApiPrefix r.treeHash r.remoteRecurse)) with
    | error e =>
      rw [Request.next, h_parse] at h_next
      cases h_next
    | ok x =>
      obtain ⟨treeHash, remoteRecurse⟩ := r
      obtain ⟨whole, calls⟩ := x
      cases whole with
      | false =>
        obtain rfl := calls_of_truncated h_parse
        obtain rfl := Option.some.inj ((next_of_truncated h_parse).symm.trans h_next)
        obtain ⟨adds, h_adds⟩ := ih _ (List.mem_singleton_self _) subdir
        exact ⟨adds, .retry h_parse h_adds⟩
      | true =>
        cases remoteRecurse with
        | true => exact ⟨_, .read h_parse (handles_remote.mpr rfl)⟩
        | false =>
          obtain rfl := Option.some.inj ((next_of_jobs h_parse).symm.trans h_next)
          obtain ⟨adds, h_adds⟩ := exists_handles_of_jobs subdir fun call h_call =>
            ih _ (List.mem_map_of_mem h_call)
          exact ⟨adds, .read h_parse h_adds⟩

mutual

theorem returns_of_loads {subdir treeHash : Str} {remoteRecurse : Bool} {adds : List Add} :
    Loads httpFetch githubApiPrefix subdir treeHash remoteRecurse adds →
    Spawn.Returns (Request.next httpFetch githubApiPrefix) ⟨treeHash, remoteRecurse⟩
  | .read h_parse h => by
    have h_jobs := returns_of_handles h
    cases remoteRecurse with
    | true => exact .mk (next_of_recursive h_parse) fun r hr => absurd hr List.not_mem_nil
    | false =>
      refine .mk (next_of_jobs h_parse) fun r hr => ?_
      obtain ⟨call, h_call, rfl⟩ := List.mem_map.mp hr
      exact h_jobs rfl call h_call
  | .retry h_parse h =>
    .mk (next_of_truncated h_parse) (List.forall_mem_singleton.mpr (returns_of_loads h))

theorem returns_of_handles {subdir : Str} {remoteRecurse : Bool} {calls : List FileCall} {adds : List Add} :
    Handles httpFetch githubApiPrefix subdir remoteRecurse calls adds → remoteRecurse = false →
    ∀ call ∈ subtreeCalls calls, Spawn.Returns (Request.next httpFetch githubApiPrefix) ⟨call.sha, false⟩
  | .nil, _ => fun call h_call => absurd h_call List.not_mem_nil
  | .blob h_type h, h_false => by
    rw [subtreeCalls_other (by rw [h_type]; decide)]
    exact returns_of_handles h h_false
  | .tree _ _, h_false => by cases h_false
  | .commit h_type h, h_false => by
    rw [subtreeCalls_other (by rw [h_type]; decide)]
    exact returns_of_handles h h_false
  | .job h_type h_job h _, h_false => by
    rw [subtreeCalls_tree h_type, List.forall_mem_cons]
    exact ⟨returns_of_loads h_job, returns_of_handles h h_false⟩

end

/-- **There is a run in `Loads` just if the calls return.** -/
theorem returns_iff : Spawn.Returns (Request.next httpFetch githubApiPrefix) ⟨treeHash, remoteRecurse⟩ ↔
    ∃ adds, Loads httpFetch githubApiPrefix subdir treeHash remoteRecurse adds :=
  ⟨fun h => exists_loads_of_returns h subdir, fun ⟨_, h⟩ => returns_of_loads h⟩

/-! ### Trees of hashes -/

/-- A tree and what is below it: hashes, with the entries of the trees. -/
inductive Below : Str → List (Str × GitTree.Entry) → Str → List (Str × GitTree.Entry) → Prop
  | self {sha : Str} {es : List (Str × GitTree.Entry)} : Below sha es sha es
  | under {sha sha' sha'' n : Str} {es es' es'' : List (Str × GitTree.Entry)}
      (h : (n, .tree sha' es') ∈ es) (h' : Below sha' es' sha'' es'') : Below sha es sha'' es''

/-- The hash of a tree. -/
def hashOf : GitTree.Entry → Option Str
  | .tree sha _ => some sha
  | _ => none

/-- The hashes of the subtrees. -/
def subtreeHashes (es : List (Str × GitTree.Entry)) : List Str :=
  es.filterMap fun x => hashOf x.2

/-- The answer to a request for a tree alone. If it is whole, it lists the subtrees. -/
def AnswersAlone (truncated : Bool) (es : List (Str × GitTree.Entry)) (s : Str) : Prop :=
  if truncated then parseTrees s = .ok (false, [])
  else ∃ calls, parseTrees s = .ok (true, calls) ∧
    ((subtreeCalls calls).map FileCall.sha).Perm (subtreeHashes es)

/-- The answer to a recursive request. -/
def AnswersRecursive (truncated : Bool) (s : Str) : Prop :=
  if truncated then parseTrees s = .ok (false, []) else ∃ calls, parseTrees s = .ok (true, calls)

/-- The server knows the tree, and `truncated` says which of its answers are. -/
structure Answered (truncated : Str → Bool → Bool) (httpFetch : Str → Str) (githubApiPrefix treeHash : Str)
    (root : List (Str × GitTree.Entry)) : Prop where
  recursive : AnswersRecursive (truncated treeHash true) (httpFetch (fetchUrl githubApiPrefix treeHash true))
  alone : ∀ sha es, Below treeHash root sha es →
    AnswersAlone (truncated sha false) es (httpFetch (fetchUrl githubApiPrefix sha false))

variable {truncated : Str → Bool → Bool} {root es es' : List (Str × GitTree.Entry)}

theorem mem_subtreeHashes : sha ∈ subtreeHashes es ↔ ∃ n es', (n, .tree sha es') ∈ es := by
  constructor
  · intro h
    obtain ⟨⟨n, e⟩, h_mem, h_hash⟩ := List.mem_filterMap.mp h
    cases e with
    | blob mode sha size => cases h_hash
    | commit sha => cases h_hash
    | tree sha' es' =>
      obtain rfl := Option.some.inj h_hash
      exact ⟨n, es', h_mem⟩
  · rintro ⟨n, es', h_mem⟩
    exact List.mem_filterMap.mpr ⟨_, h_mem, rfl⟩

/-- The jobs that a whole answer starts. -/
theorem exists_jobs (h : AnswersAlone false es (httpFetch (fetchUrl githubApiPrefix sha false))) :
    ∃ shas : List Str, shas.Perm (subtreeHashes es) ∧
      Request.next httpFetch githubApiPrefix ⟨sha, false⟩ = some (shas.map fun sha => ⟨sha, false⟩) := by
  obtain ⟨calls, h_parse, h_perm⟩ := h
  refine ⟨_, h_perm, ?_⟩
  rw [next_of_jobs h_parse, List.map_map]
  rfl

/-! ### When the calls return -/

/-- Where no answer is truncated, the jobs return. -/
theorem returns_alone (es : List (Str × GitTree.Entry)) {sha : Str} (h : ∀ sha' es', Below sha es sha' es' →
      AnswersAlone (truncated sha' false) es' (httpFetch (fetchUrl githubApiPrefix sha' false)))
    (h_whole : ∀ sha' es', Below sha es sha' es' → truncated sha' false = false) :
    Spawn.Returns (Request.next httpFetch githubApiPrefix) ⟨sha, false⟩ := by
  have h_answer := h sha es .self
  rw [h_whole sha es .self] at h_answer
  obtain ⟨shas, h_perm, h_next⟩ := exists_jobs h_answer
  refine .mk h_next fun r hr => ?_
  obtain ⟨sha', h_sha, rfl⟩ := List.mem_map.mp hr
  obtain ⟨n, es', h_mem⟩ := mem_subtreeHashes.mp (h_perm.mem_iff.mp h_sha)
  have h_lt := GitTree.sizeOf_lt_of_mem h_mem
  exact returns_alone es' (fun sha'' es'' h_below => h sha'' es'' (.under h_mem h_below))
    fun sha'' es'' h_below => h_whole sha'' es'' (.under h_mem h_below)
termination_by sizeOf es

/-- A truncated answer is asked for again and again, and so no call returns that leads to it. -/
theorem endless_alone (h_below : Below sha es sha' es') (h : ∀ sha' es', Below sha es sha' es' →
      AnswersAlone (truncated sha' false) es' (httpFetch (fetchUrl githubApiPrefix sha' false)))
    (h_truncated : truncated sha' false = true) :
    Spawn.Endless (Request.next httpFetch githubApiPrefix) ⟨sha, false⟩ := by
  induction h_below with
  | @self sha es =>
    have h_answer := h sha es .self
    rw [h_truncated] at h_answer
    exact Spawn.endless_of_mem (next_of_truncated h_answer) (List.mem_singleton_self _)
  | @under sha sha₁ sha₂ n es es₁ es₂ h_mem _ ih =>
    have h_sub := ih (fun sha' es' h_below => h sha' es' (.under h_mem h_below)) h_truncated
    have h_answer := h sha es .self
    cases h_flag : truncated sha false with
    | true =>
      rw [h_flag] at h_answer
      exact Spawn.endless_of_mem (next_of_truncated h_answer) (List.mem_singleton_self _)
    | false =>
      rw [h_flag] at h_answer
      obtain ⟨shas, h_perm, h_next⟩ := exists_jobs h_answer
      have h_sha : sha₁ ∈ shas := h_perm.mem_iff.mpr (mem_subtreeHashes.mpr ⟨n, es₁, h_mem⟩)
      exact h_sub.of_next h_next (List.mem_map_of_mem h_sha)

/-- **Loading a tree ends just if the recursive answer is whole, or the answers without `recursive` are, for
the tree and all that is below it.** -/
theorem loadFinishes_iff (truncated : Str → Bool → Bool) (httpFetch : Str → Str)
    (githubApiPrefix treeHash : Str) (root : List (Str × GitTree.Entry))
    (h : Answered truncated httpFetch githubApiPrefix treeHash root) :
    LoadFinishes httpFetch githubApiPrefix treeHash ↔ truncated treeHash true = false ∨
      ∀ sha es, Below treeHash root sha es → truncated sha false = false := by
  have h_recursive := h.recursive
  cases h_flag : truncated treeHash true with
  | false =>
    rw [h_flag] at h_recursive
    obtain ⟨calls, h_parse⟩ := h_recursive
    have h_returns : Spawn.Returns (Request.next httpFetch githubApiPrefix) ⟨treeHash, true⟩ :=
      .mk (next_of_recursive h_parse) fun r hr => absurd hr List.not_mem_nil
    exact iff_of_true h_returns.finishes (.inl rfl)
  | true =>
    rw [h_flag] at h_recursive
    have h_next := next_of_truncated h_recursive
    rw [or_iff_right (Bool.noConfusion : ¬ true = false)]
    constructor
    · intro h_finishes sha es h_below
      by_contra h_not
      have h_endless := endless_alone h_below h.alone (Bool.eq_true_of_not_eq_false h_not)
      exact (h_endless.of_next h_next (List.mem_singleton_self _)).not_finishes h_finishes
    · intro h_whole
      have h_returns := returns_alone root h.alone h_whole
      exact Spawn.Returns.finishes (.mk h_next (List.forall_mem_singleton.mpr h_returns))

/-! ### Answers as texts -/

theorem shas_read {nodes : List (List Str × GitTree.Entry)} {entries : List TreeEntry}
    (h : List.Forall₂ Describes nodes entries) :
    (subtreeCalls (entries.map TreeEntry.read)).map FileCall.sha = nodes.filterMap fun x => hashOf x.2 := by
  induction h with
  | nil => rfl
  | @cons x t nodes entries h_x _ ih =>
    obtain ⟨q, e⟩ := x
    obtain ⟨url, rfl⟩ := h_x
    rw [List.map_cons, List.filterMap_cons]
    cases e with
    | blob mode sha size =>
      rw [subtreeCalls_other (fun h_type => (by cases h_type)), ih]
      rfl
    | commit sha =>
      rw [subtreeCalls_other (fun h_type => (by cases h_type)), ih]
      rfl
    | tree sha es =>
      rw [subtreeCalls_tree rfl, List.map_cons, ih]
      rfl

/-- A text that lists what is in a tree. -/
theorem answersAlone_listsChildren {s : Str} (h : ListsChildren es s) (h_sized : Sized es) :
    AnswersAlone false es s := by
  obtain ⟨nodes, h_perm, h_lists⟩ := h
  obtain ⟨entries, h_entries, h_parse⟩ := h_lists.parse h_sized fun x hx =>
    GitTree.at_of_mem_children (h_perm.mem_iff.mp hx)
  refine ⟨_, h_parse, ?_⟩
  rw [shas_read h_entries]
  have h_children : (GitTree.children es).filterMap (fun x => hashOf x.2) = subtreeHashes es := by
    rw [GitTree.children, List.filterMap_map]
    rfl
  exact h_children ▸ h_perm.filterMap _

theorem sized_of_below {es' : List (Str × GitTree.Entry)} (h : Below sha es sha' es') (h_sized : Sized es) :
    Sized es' := by
  induction h with
  | self => exact h_sized
  | under h_mem _ ih =>
    exact ih fun q mode sha size h_at => h_sized (_ :: q) mode sha size (.under h_mem h_at)

theorem listsChildren_of_below {es' : List (Str × GitTree.Entry)} (h : Below sha es sha' es')
    (h_top : ListsChildren es (httpFetch (fetchUrl githubApiPrefix sha false)))
    (h_served : Served httpFetch githubApiPrefix es) :
    ListsChildren es' (httpFetch (fetchUrl githubApiPrefix sha' false)) := by
  induction h with
  | self => exact h_top
  | under h_mem _ ih =>
    refine ih (h_served _ _ _ (.here h_mem)) fun q sha es' h_at => ?_
    exact h_served (_ :: q) sha es' (.under h_mem h_at)

/-- Only the recursive answer is truncated. -/
theorem Truncates.answered (h : Truncates httpFetch githubApiPrefix treeHash root) (h_sized : Sized root) :
    Answered (fun _ remoteRecurse => remoteRecurse) httpFetch githubApiPrefix treeHash root := by
  obtain ⟨entries, h_truncated⟩ := h.recursive
  refine ⟨parseTrees_truncated h_truncated, fun sha es h_below => ?_⟩
  exact answersAlone_listsChildren (listsChildren_of_below h_below h.top h.subtrees)
    (sized_of_below h_below h_sized)

/-- Then the jobs do it. -/
theorem loadFinishes_iff_twoLevels : LoadFinishes truncating [] (str "4b82") :=
  (loadFinishes_iff (fun _ remoteRecurse => remoteRecurse) truncating [] (str "4b82") twoLevels
    (truncating_truncates.answered twoLevels_sized)).mpr (.inr fun _ _ _ => rfl)

/-- All answers are truncated. -/
def always (_ : Str) (_ : Bool) : Bool :=
  true

/-- These are. -/
def truncatingAll (_ : Str) : Str :=
  answerText [] true

/-- **An answer without `recursive` that is truncated** is asked for again for ever. -/
theorem truncatingAll_not_finishes : Answered always truncatingAll [] (str "4b82") [] ∧
    ¬ LoadFinishes truncatingAll [] (str "4b82") := by
  have h_none : ∀ x ∈ ([] : List (TreeEntry × Str × Str)), Printable x :=
    fun x hx => absurd hx List.not_mem_nil
  have h_parse (url : Str) : parseTrees (truncatingAll url) = .ok (false, []) :=
    parseTrees_truncated (answer_answerText h_none true)
  have h_answered : Answered always truncatingAll [] (str "4b82") [] := ⟨h_parse _, fun _ _ _ => h_parse _⟩
  have h_flag : always (str "4b82") false = true := rfl
  have h_endless := endless_alone .self h_answered.alone h_flag
  exact ⟨h_answered, (h_endless.of_next (next_of_truncated (h_parse _)) (.head _)).not_finishes⟩

end GitlstreeFS.Githubfs
