import GitlstreeFS.Buffer
import GitlstreeFS.Client
import GitlstreeFS.Gitfs.Model
import Mathlib.Logic.Relation

/-!
# The mounted commit

From the trees of a commit to the client of the mount: `LoadDirectory` puts an element at each path of the
trees, in the order of `preorder`, so that no `reset` destroys anything (`loadDirectory_eq`, `Good.placeAll`).
What is in the index then is what is in the elements (`Shows`), and a client that walks the mount finds the
entries of the trees and reads the contents of the blobs (`mounted_tree`).
-/

namespace GitlstreeFS.Gitfs

open Buffer (Reader ReadsAs)
open Client (Looked IsDir ServesTree dropDots)
open DirectoryContainer (dirPath)
open GitlstreeFS.GitTree (Entry At WellFormed preorder mem_preorder pairwise_preorder)
open Owned (Ptr Store)

variable {git : Libgit2} {es : List (Str × Entry)} {t : GitTree} {q loc : List Str} {n : Str} {e : Entry}
  {fe : FileElement} {nodes xs : List (List Str × FileElement)} {st : Stat} {bufs bufs' : Buffers}

/-! ### Full paths -/

/-- The key of a path: without the slash in front. -/
def fullpath (q : List Str) : Str :=
  (render q).drop 1

/-- `subdir`, in the directory at a path. -/
def subdirOf (loc : List Str) : Str :=
  if loc = [] then [] else fullpath loc ++ [slash]

theorem render_eq_cons (hq : q ≠ []) : render q = slash :: fullpath q := by
  obtain ⟨n, q, rfl⟩ := List.exists_cons_of_ne_nil hq
  rfl

theorem dirPath_eq (q : List Str) : dirPath q = slash :: fullpath q := by
  rw [dirPath]
  split_ifs with h_nil
  · rw [h_nil]
    rfl
  · exact render_eq_cons h_nil

theorem subdirOf_append (loc : List Str) (n : Str) : subdirOf loc ++ n = fullpath (loc ++ [n]) := by
  have h_concat : fullpath (loc ++ [n]) = (render loc ++ slash :: n).drop 1 := by
    rw [fullpath, render_concat]
  rw [h_concat, subdirOf]
  split_ifs with h_nil
  · rw [h_nil]
    rfl
  · rw [render_eq_cons h_nil]
    simp

theorem subdirOf_concat (loc : List Str) (n : Str) : subdirOf loc ++ n ++ [slash] = subdirOf (loc ++ [n]) := by
  rw [subdirOf_append, subdirOf, if_neg (by simp)]

/-- A full path is that of one path. -/
theorem fullpath_inj {q' : List Str} (h : ∀ n ∈ q, IsName n) (h' : ∀ n ∈ q', IsName n)
    (h_eq : fullpath q = fullpath q') : q = q' := by
  have h_nil {r : List Str} (hr : ∀ n ∈ r, IsName n) (h_empty : fullpath r = []) : r = [] := by
    by_contra h_ne
    obtain ⟨n, r, rfl⟩ := List.exists_cons_of_ne_nil h_ne
    obtain ⟨h_n, -⟩ := List.append_eq_nil_iff.mp (show n ++ render r = [] from h_empty)
    exact (hr n List.mem_cons_self).1 h_n
  by_cases hq : q = []
  · subst hq
    exact (h_nil h' h_eq.symm).symm
  · have hq' : q' ≠ [] := by
      rintro rfl
      exact hq (h_nil h h_eq)
    refine render_inj h h' ?_
    rw [render_eq_cons hq, render_eq_cons hq', h_eq]

/-! ### Entries -/

/-- The repository has the object of an entry. That of a submodule is in another one. -/
def Libgit2.Stores (git : Libgit2) : Entry → Prop
  | .blob mode sha size =>
    ∃ blob, git.entryToObject (.blob mode sha size) = some (.blob blob) ∧ blob.length = size
  | .commit _ => True
  | .tree sha es => git.entryToObject (.tree sha es) = some .tree

/-- The size of a blob, as an `int`. -/
def entrySize : Entry → ℤ
  | .blob _ _ size => toInt size
  | _ => 0

/-- The element of an entry. -/
def entryElement (git : Libgit2) (e : Entry) : FileElement :=
  ⟨git.entryFilemode e, git.entryType e, git.entryId e, entrySize e,
    if git.entryType e = .blob then git.entryToObject e else none⟩

theorem newElement_eq (h_git : git.Documents e) (h_stores : git.Stores e) :
    newElement git e = .ok (entryElement git e) := by
  rw [newElement, entryElement]
  cases e with
  | blob mode sha size =>
    obtain ⟨h_type, -⟩ := h_git
    obtain ⟨blob, h_blob, rfl⟩ := h_stores
    rw [if_pos h_type, if_pos h_type, h_blob]
    rfl
  | commit sha =>
    have h_type : git.entryType (.commit sha) ≠ .blob := by rw [h_git.1]; decide
    rw [if_neg h_type, if_neg h_type]
    rfl
  | tree sha es' =>
    have h_type : git.entryType (.tree sha es') ≠ .blob := by rw [h_git.1]; decide
    rw [if_neg h_type, if_neg h_type]
    rfl

/-! ### Loading -/

/-- A new element at a path, in the element above it and in the index. -/
def GitTree.place (t : GitTree) (q : List Str) (fe : FileElement) : GitTree where
  files := Function.update t.files (fullpath q) (some ⟨q, t.owned.next⟩)
  owned := t.owned.reset q fe

/-- One after the other. -/
def GitTree.placeAll (t : GitTree) (xs : List (List Str × FileElement)) : GitTree :=
  xs.foldl (fun t x => t.place x.1 x.2) t

theorem fileHandler_eq : t.fileHandler loc (subdirOf loc) n fe = t.place (loc ++ [n]) fe := by
  rw [GitTree.fileHandler, subdirOf_append]
  rfl

/-- What `LoadDirectory` does, all in a row. -/
theorem loadDirectory_eq (h_git : ∀ x ∈ preorder es, git.Documents x.2)
    (h_stores : ∀ x ∈ preorder es, git.Stores x.2) :
    t.loadDirectory git loc (subdirOf loc) es
      = .ok (t.placeAll ((preorder es).map fun x => (loc ++ x.1, entryElement git x.2))) := by
  induction es using GitlstreeFS.GitTree.preorder.induct generalizing t loc with
  | case1 =>
    rw [GitTree.loadDirectory, preorder]
    rfl
  | case2 n sha es' es ih_below ih =>
    rw [preorder, List.cons_append, List.forall_mem_cons, List.forall_mem_append, List.forall_mem_map]
      at h_git h_stores
    obtain ⟨h_tree, h_git_below, h_git⟩ := h_git
    obtain ⟨h_object, h_stores_below, h_stores⟩ := h_stores
    rw [GitTree.loadDirectory, newElement_eq h_tree h_object, ok_bind]
    dsimp only
    rw [if_pos h_tree.1, show git.entryToObject (.tree sha es') = some .tree from h_object]
    dsimp only
    rw [fileHandler_eq, subdirOf_concat, ih_below h_git_below h_stores_below, ok_bind, ih h_git h_stores]
    -- the paths below the tree begin with its name
    simp only [preorder, GitTree.placeAll, List.map_cons, List.map_append, List.map_map, List.foldl_cons,
      List.foldl_append, List.cons_append, Function.comp_def, List.append_assoc, List.nil_append]
  | case3 n e es h_leaf ih =>
    have h_preorder : preorder ((n, e) :: es) = ([n], e) :: preorder es := by
      rw [preorder]
      exact h_leaf
    rw [h_preorder, List.forall_mem_cons] at h_git h_stores
    have h_type : git.entryType e ≠ .tree := by
      cases e with
      | tree sha es' => exact absurd rfl (h_leaf sha es')
      | blob mode sha size => rw [h_git.1.1]; decide
      | commit sha => rw [h_git.1.1]; decide
    rw [GitTree.loadDirectory, newElement_eq h_git.1 h_stores.1, ok_bind]
    dsimp only
    rw [if_neg h_type, ok_bind, fileHandler_eq, ih h_git.2 h_stores.2, h_preorder]
    rfl

/-- The elements `nodes` are there, and the index has those below the root. -/
structure Good (nodes : List (List Str × FileElement)) (t : GitTree) : Prop where
  sound : t.owned.Sound
  content : t.owned.content = nodes
  root : (⟨[], 0⟩, rootElement) ∈ t.owned.objects
  indexed : ∀ key p, t.files key = some p ↔ ∃ x, (p, x) ∈ t.owned.objects ∧ p.loc ≠ [] ∧ key = fullpath p.loc

/-- One more element, where there is nothing yet. -/
theorem Good.place (h : Good nodes t) (h_paths : ∀ x ∈ nodes, ∀ n ∈ x.1, IsName n) (hq : IsPath q)
    (h_free : ∀ x ∈ nodes, ¬ q <+: x.1) (fe : FileElement) : Good (nodes ++ [(q, fe)]) (t.place q fe) := by
  have h_mem {o : Ptr Str × FileElement} (ho : o ∈ t.owned.objects) : (o.1.loc, o.2) ∈ nodes :=
    h.content ▸ List.mem_map_of_mem ho
  have h_free' : t.owned.Free q := fun o ho => h_free _ (h_mem ho)
  have h_objects := Store.objects_reset h_free' fe
  refine ⟨Store.sound_reset h.sound h_free' fe, ?_, ?_, fun key p => ?_⟩
  · rw [GitTree.place, Store.content_reset h_free', h.content]
  · rw [GitTree.place, h_objects]
    exact List.mem_append_left _ h.root
  · dsimp only [GitTree.place]
    rw [h_objects]
    by_cases h_key : key = fullpath q
    · -- the index has had nothing there, as no element has had this path
      subst h_key
      rw [Function.update_self, Option.some.injEq]
      constructor
      · rintro rfl
        exact ⟨fe, List.mem_append_right _ (List.mem_singleton_self _), hq.ne_nil, rfl⟩
      · rintro ⟨x, hx, h_ne, h_eq⟩
        obtain hx | hx := List.mem_append.mp hx
        · have h_loc := fullpath_inj hq.isName (h_paths _ (h_mem hx)) h_eq
          exact absurd (h_loc ▸ List.prefix_refl _) (h_free _ (h_mem hx))
        · exact (Prod.mk.inj (List.mem_singleton.mp hx)).1.symm
    · rw [Function.update_of_ne h_key, h.indexed]
      refine exists_congr fun x => and_congr_left fun h_p => ?_
      rw [List.mem_append, or_iff_left]
      intro hx
      obtain ⟨rfl, -⟩ := Prod.mk.inj (List.mem_singleton.mp hx)
      exact h_key h_p.2

/-- All of them. -/
theorem Good.placeAll (h : Good nodes t) (h_paths : ∀ x ∈ nodes, ∀ n ∈ x.1, IsName n)
    (hxs : ∀ x ∈ xs, IsPath x.1)
    (h_order : (nodes ++ xs).Pairwise fun x y => ¬ y.1 <+: x.1) : Good (nodes ++ xs) (t.placeAll xs) := by
  -- from the first on; what is there grows at its end
  induction xs generalizing nodes t with
  | nil => rwa [List.append_nil]
  | cons y xs ih =>
    have hy : IsPath y.1 := hxs y List.mem_cons_self
    have h_free : ∀ x ∈ nodes, ¬ y.1 <+: x.1 := fun x hx =>
      (List.pairwise_append.mp h_order).2.2 x hx y List.mem_cons_self
    have h_paths' : ∀ x ∈ nodes ++ [y], ∀ n ∈ x.1, IsName n := by
      intro x hx
      obtain hx | hx := List.mem_append.mp hx
      · exact h_paths x hx
      · rw [List.mem_singleton.mp hx]
        exact hy.isName
    have h_eq : nodes ++ y :: xs = (nodes ++ [y]) ++ xs := by rw [List.append_assoc]; rfl
    rw [h_eq] at h_order ⊢
    exact ih (h.place h_paths hy h_free y.2) h_paths' (fun x hx => hxs x (List.mem_cons_of_mem _ hx)) h_order

/-- The elements `nodes` are there, and the index has them all. -/
structure Shows (nodes : List (List Str × FileElement)) (t : GitTree) : Prop where
  sound : t.owned.Sound
  content : t.owned.content = nodes
  indexed : ∀ key p, t.files key = some p ↔ ∃ x, (p, x) ∈ t.owned.objects ∧ key = fullpath p.loc

theorem Good.shows (h : Good nodes t) (h_paths : ∀ x ∈ nodes, ∀ n ∈ x.1, IsName n) :
    Shows nodes { t with files := Function.update t.files [] (some ⟨[], 0⟩) } := by
  have h_nil {p : Ptr Str} {x : FileElement} (hx : (p, x) ∈ t.owned.objects) (h_key : [] = fullpath p.loc) :
      p.loc = [] := by
    have h_mem : (p.loc, x) ∈ nodes := h.content ▸ List.mem_map_of_mem (f := fun o => (o.1.loc, o.2)) hx
    exact fullpath_inj (h_paths _ h_mem) (fun n hn => absurd hn List.not_mem_nil) h_key.symm
  refine ⟨h.sound, h.content, fun key p => ?_⟩
  dsimp only
  by_cases h_key : key = []
  · subst h_key
    rw [Function.update_self, Option.some.injEq]
    constructor
    · rintro rfl
      exact ⟨rootElement, h.root, rfl⟩
    · rintro ⟨x, hx, h_eq⟩
      exact congrArg Prod.fst (h.sound.eq_of_loc h.root hx (h_nil hx h_eq).symm)
  · rw [Function.update_of_ne h_key, h.indexed]
    refine exists_congr fun x => and_congr_right fun _ => and_iff_right_of_imp ?_
    rintro rfl h_loc
    exact h_key (by rw [h_loc]; rfl)

/-- The elements of the trees, behind the root. -/
def elements (git : Libgit2) (es : List (Str × Entry)) : List (List Str × FileElement) :=
  ([], rootElement) :: (preorder es).map fun x => (x.1, entryElement git x.2)

theorem mem_elements : (q, fe) ∈ elements git es ↔
    q = [] ∧ fe = rootElement ∨ ∃ e, At es q e ∧ fe = entryElement git e := by
  rw [elements, List.mem_cons, Prod.mk.injEq]
  refine or_congr_right ?_
  constructor
  · intro h
    obtain ⟨⟨p, e⟩, h_mem, h_eq⟩ := List.mem_map.mp h
    obtain ⟨rfl, rfl⟩ := Prod.mk.inj h_eq
    exact ⟨e, mem_preorder.mp h_mem, rfl⟩
  · rintro ⟨e, h_at, rfl⟩
    exact List.mem_map.mpr ⟨(q, e), mem_preorder.mpr h_at, rfl⟩

theorem pairwise_elements (h_wf : WellFormed es) :
    (elements git es).Pairwise fun x y => ¬ y.1 <+: x.1 := by
  rw [elements, List.pairwise_cons, List.pairwise_map]
  refine ⟨fun y hy h_pre => ?_, pairwise_preorder h_wf⟩
  obtain ⟨x, hx, rfl⟩ := List.mem_map.mp hy
  exact (mem_preorder.mp hx).ne_nil (List.prefix_nil.mp h_pre)

theorem elements_isName (h_wf : WellFormed es) : ∀ x ∈ elements git es, ∀ n ∈ x.1, IsName n := by
  rintro ⟨q, fe⟩ hx
  obtain ⟨rfl, -⟩ | ⟨e, h_at, -⟩ := mem_elements.mp hx
  · exact fun n hn => absurd hn List.not_mem_nil
  · exact (h_at.isPath h_wf).isName

/-- **The constructor** makes an element for each entry of the trees, and puts it into the index. -/
theorem exists_make (h_wf : WellFormed es) (h_git : ∀ q e, At es q e → git.Documents e)
    (h_stores : ∀ q e, At es q e → git.Stores e) :
    ∃ t, GitTree.make git es = .ok t ∧ Shows (elements git es) t := by
  have h_root : Good [([], rootElement)] GitTree.rootOnly := by
    refine ⟨List.nodup_singleton _, rfl, List.mem_singleton_self _,
      fun key p => iff_of_false (by simp [GitTree.rootOnly]) ?_⟩
    rintro ⟨x, hx, h_ne, -⟩
    obtain ⟨rfl, -⟩ := Prod.mk.inj (List.mem_singleton.mp hx)
    exact h_ne rfl
  have h_xs : ∀ x ∈ (preorder es).map (fun x => (x.1, entryElement git x.2)), IsPath x.1 := by
    intro x hx
    obtain ⟨y, hy, rfl⟩ := List.mem_map.mp hx
    exact (mem_preorder.mp hy).isPath h_wf
  have h_good := h_root.placeAll (by simp) h_xs (pairwise_elements h_wf)
  have h_load : GitTree.rootOnly.loadDirectory git [] [] es = .ok _ :=
    loadDirectory_eq (fun x hx => h_git x.1 x.2 (mem_preorder.mp hx))
      fun x hx => h_stores x.1 x.2 (mem_preorder.mp hx)
  refine ⟨_, ?_, h_good.shows (elements_isName h_wf)⟩
  rw [GitTree.make, h_load, ok_bind]
  simp only [List.nil_append]

/-! ### What a client is told -/

/-- `stat`. -/
def clientStat (t : GitTree) (path : Str) : Option Stat :=
  match t.fsGetattr path with
  | .ok (.ok st) => some st
  | _ => none

/-- `readdir`. -/
def clientList (t : GitTree) (path : Str) : Option (List Str) :=
  match t.fsReaddir path with
  | .ok (.ok names) => some names
  | _ => none

/-- `find` on the mount, from its root down to a depth. -/
def clientFind (t : GitTree) (depth : ℕ) : List (List Str × Stat) :=
  Client.find (clientStat t) (clientList t) depth

/-- An open file, to read from. -/
def GitTree.reader (t : GitTree) (path : Str) : Reader UInt8 where
  State := Buffers
  read bufs size offset :=
    match t.fsRead path size offset bufs with
    | .ok (.ok result, bufs) => some (result, bufs)
    | _ => none

namespace Shows

variable (h : Shows nodes t)

include h

theorem mem_nodes {p : Ptr Str} (hp : (p, fe) ∈ t.owned.objects) : (p.loc, fe) ∈ nodes :=
  h.content ▸ List.mem_map_of_mem (f := fun o => (o.1.loc, o.2)) hp

theorem exists_ptr (h_mem : (q, fe) ∈ nodes) : ∃ p, p.loc = q ∧ (p, fe) ∈ t.owned.objects := by
  rw [← h.content] at h_mem
  obtain ⟨o, ho, h_eq⟩ := List.mem_map.mp h_mem
  obtain ⟨rfl, rfl⟩ := Prod.mk.inj h_eq
  exact ⟨o.1, rfl, ho⟩

/-- The index has an element at its path. -/
theorem files_of_mem (h_mem : (q, fe) ∈ nodes) :
    ∃ p, p.loc = q ∧ t.files (fullpath q) = some p ∧ t.owned.deref p = some fe := by
  obtain ⟨p, rfl, hp⟩ := h.exists_ptr h_mem
  exact ⟨p, rfl, (h.indexed _ _).mpr ⟨fe, hp, rfl⟩, h.sound.deref_eq_some_iff.mpr hp⟩

/-- It has nothing at another path. -/
theorem files_eq_none (h_paths : ∀ x ∈ nodes, ∀ n ∈ x.1, IsName n) (hq : ∀ n ∈ q, IsName n)
    (h_none : ∀ fe, (q, fe) ∉ nodes) : t.files (fullpath q) = none := by
  rw [Option.eq_none_iff_forall_ne_some]
  intro p h_some
  obtain ⟨fe, hp, h_key⟩ := (h.indexed _ _).mp h_some
  have h_mem := h.mem_nodes hp
  obtain rfl := fullpath_inj hq (h_paths _ h_mem) h_key
  exact h_none fe h_mem

theorem clientStat_of_mem (h_mem : (q, fe) ∈ nodes) : clientStat t (dirPath q) = fe.getattr.toOption := by
  obtain ⟨p, -, h_files, h_deref⟩ := h.files_of_mem h_mem
  have h_get : t.get (fullpath q) = .ok (some (p, fe)) := by
    rw [GitTree.get, h_files]
    simp only [h_deref]
  rw [clientStat, GitTree.fsGetattr, dirPath_eq, if_neg (List.cons_ne_nil _ _), List.drop_one, List.tail_cons,
    h_get, ok_bind]
  dsimp only
  cases fe.getattr <;> rfl

theorem clientStat_eq_none (h_paths : ∀ x ∈ nodes, ∀ n ∈ x.1, IsName n) (hq : ∀ n ∈ q, IsName n)
    (h_none : ∀ fe, (q, fe) ∉ nodes) : clientStat t (dirPath q) = none := by
  have h_get : t.get (fullpath q) = .ok none := by
    rw [GitTree.get, h.files_eq_none h_paths hq h_none]
  rw [clientStat, GitTree.fsGetattr, dirPath_eq, if_neg (List.cons_ne_nil _ _), List.drop_one, List.tail_cons,
    h_get, ok_bind]

theorem clientList_eq_none (h_paths : ∀ x ∈ nodes, ∀ n ∈ x.1, IsName n) (hq : ∀ n ∈ q, IsName n)
    (h_none : ∀ fe, (q, fe) ∉ nodes) : clientList t (dirPath q) = none := by
  have h_files := h.files_eq_none h_paths hq h_none
  rw [clientList, GitTree.fsReaddir, dirPath_eq, if_neg (by simp), List.drop_one, List.tail_cons, h_files]

theorem clientList_of_mem (h_mem : (q, fe) ∈ nodes) :
    clientList t (dirPath q) = some ([str ".", str ".."] ++ t.owned.names q) := by
  obtain ⟨p, rfl, h_files, h_deref⟩ := h.files_of_mem h_mem
  rw [clientList, GitTree.fsReaddir, dirPath_eq, if_neg (by simp), List.drop_one, List.tail_cons, h_files]
  simp only [h_deref]

end Shows

/-! ### What there is at a path -/

/-- What a client is told about a file with a mode and a size. -/
def fileStat (mode : ℕ) (size : ℤ) : Stat :=
  if mode = sIFLNK then ⟨sIFLNK ||| 0x1a4, 1, size⟩ else ⟨sIFREG ||| mode, 1, size⟩

/-- What it is told about an entry. -/
def statOf (git : Libgit2) : Entry → Stat
  | .tree _ _ => ⟨sIFDIR ||| 0x1ed, 2, 0⟩
  | e => fileStat (git.entryFilemode e) (entrySize e)

theorem isDir_tree {sha : Str} {es' : List (Str × Entry)} : IsDir (statOf git (.tree sha es')) :=
  show (sIFDIR ||| 0x1ed) &&& sIFMT = sIFDIR by decide

/-- What a client finds at a path: the entry, or the root. -/
inductive Found (git : Libgit2) (es : List (Str × Entry)) : List Str → Stat → Prop
  | root : Found git es [] ⟨sIFDIR ||| 0x1ed, 2, 0⟩
  | entry {q : List Str} {e : Entry} (h : At es q e) : Found git es q (statOf git e)

/-- No mode of a blob is that of a directory. -/
theorem getattr_eq (h : git.Documents e) : (entryElement git e).getattr = .ok (statOf git e) := by
  have h_file {e : Entry} (h_mode : git.entryFilemode e ≠ sIFDIR) :
      (entryElement git e).getattr = .ok (fileStat (git.entryFilemode e) (entrySize e)) := by
    have h_attribute : (entryElement git e).attribute_ ≠ sIFDIR := h_mode
    rw [FileElement.getattr, if_neg h_attribute, fileStat, apply_ite Except.ok]
    rfl
  cases e with
  | blob mode sha size =>
    have h_modes : ∀ m ∈ blobModes, m ≠ sIFDIR := by decide
    exact h_file (h_modes _ h.2.1)
  | commit sha =>
    refine h_file ?_
    rw [h.2]
    decide
  | tree sha es' =>
    have h_attribute : (entryElement git (.tree sha es')).attribute_ = sIFDIR := h.2
    have h_type : (entryElement git (.tree sha es')).fileType = .tree := h.1
    rw [FileElement.getattr, if_pos h_attribute, if_pos h_type]
    rfl

theorem found_iff (h : ∀ q e, At es q e → git.Documents e) : Found git es q st ↔
    ∃ fe, (q, fe) ∈ elements git es ∧ fe.getattr = .ok st := by
  simp only [mem_elements]
  constructor
  · intro h_found
    cases h_found with
    | root => exact ⟨_, .inl ⟨rfl, rfl⟩, rfl⟩
    | entry h_at => exact ⟨_, .inr ⟨_, h_at, rfl⟩, getattr_eq (h _ _ h_at)⟩
  · rintro ⟨fe, ⟨rfl, rfl⟩ | ⟨e, h_at, rfl⟩, h_st⟩
    · obtain rfl := Except.ok.inj h_st
      exact .root
    · obtain rfl := Except.ok.inj ((getattr_eq (h _ _ h_at)).symm.trans h_st)
      exact .entry h_at

theorem Found.of_concat (h : Found git es (q ++ [n]) st) :
    ∃ e, At es (q ++ [n]) e ∧ st = statOf git e := by
  generalize h_eq : q ++ [n] = p at h
  cases h with
  | root => exact absurd h_eq (by simp)
  | entry h_at => exact ⟨_, h_at, rfl⟩

/-- **The mount serves the trees.** -/
theorem Shows.servesTree (h : Shows (elements git es) t) (h_wf : WellFormed es)
    (h_git : ∀ q e, At es q e → git.Documents e) :
    ServesTree (clientStat t) (clientList t) (Found git es) where
  stat q h_looked st := by
    rw [found_iff h_git]
    by_cases h_some : ∃ fe, (q, fe) ∈ elements git es
    · obtain ⟨fe, h_mem⟩ := h_some
      have h_stat := h.clientStat_of_mem h_mem
      constructor
      · intro h_st
        rw [h_stat] at h_st
        refine ⟨fe, h_mem, ?_⟩
        cases h_getattr : fe.getattr with
        | error m => simp [h_getattr, Except.toOption] at h_st
        | ok st' => simpa [h_getattr, Except.toOption] using h_st
      · rintro ⟨fe', h_mem', h_st⟩
        rw [h.clientStat_of_mem h_mem', h_st]
        rfl
    · rw [h.clientStat_eq_none (elements_isName h_wf) (fun n hn => (h_looked n hn).1) (not_exists.mp h_some)]
      exact iff_of_false (by simp) fun ⟨fe, h_mem, _⟩ => h_some ⟨fe, h_mem⟩
  above q n st h_looked h_found := by
    obtain ⟨e, h_at, -⟩ := h_found.of_concat
    have h_list {fe : FileElement} (h_mem : (q, fe) ∈ elements git es) :
        (clientList t (dirPath q)).isSome := by
      rw [h.clientList_of_mem h_mem]
      rfl
    by_cases hq : q = []
    · subst hq
      exact ⟨_, .root, @isDir_tree git [] [], h_list (mem_elements.mpr (.inl ⟨rfl, rfl⟩))⟩
    · obtain ⟨sha, es', h_tree, -⟩ := h_at.above hq (List.cons_ne_nil _ _)
      exact ⟨_, .entry h_tree, isDir_tree, h_list (mem_elements.mpr (.inr ⟨_, h_tree, rfl⟩))⟩
  list q names h_looked h_list := by
    have h_mem_names (n : Str) : n ∈ t.owned.names q ↔ ∃ st, Found git es (q ++ [n]) st := by
      rw [Store.mem_names, h.content]
      constructor
      · rintro ⟨fe, h_mem⟩
        obtain ⟨h_nil, -⟩ | ⟨e, h_at, -⟩ := mem_elements.mp h_mem
        · exact absurd h_nil (by simp)
        · exact ⟨_, .entry h_at⟩
      · rintro ⟨st, h_found⟩
        obtain ⟨e, h_at, -⟩ := h_found.of_concat
        exact ⟨_, mem_elements.mpr (.inr ⟨e, h_at, rfl⟩)⟩
    obtain ⟨fe, h_mem⟩ : ∃ fe, (q, fe) ∈ elements git es := by
      by_contra h_none
      have h_nothing := h.clientList_eq_none (elements_isName h_wf) (fun n hn => (h_looked n hn).1)
        (not_exists.mp h_none)
      rw [h_nothing] at h_list
      cases h_list
    rw [h.clientList_of_mem h_mem] at h_list
    obtain rfl := Option.some.inj h_list
    refine Client.listed_of_children h.sound.nodup_names h_mem_names fun n h_n => ?_
    obtain ⟨st, h_found⟩ := h_n
    obtain ⟨e, h_at, -⟩ := h_found.of_concat
    exact (h_at.isPath h_wf).isName n (by simp)

/-! ### Reading -/

/-- What the kernel may do to the buffers: it reads at any path, any time. -/
def Asks (t : GitTree) (bufs bufs' : Buffers) : Prop :=
  ∃ path size offset result, t.fsRead path size offset bufs = .ok (result, bufs')

/-- After any number of reads. -/
def Asked (t : GitTree) : Buffers → Prop :=
  Relation.ReflTransGen (Asks t) fun _ => none

/-- A buffer has the contents of the blob. -/
def Filled (t : GitTree) (bufs : Buffers) : Prop :=
  ∀ p fe buf, (p, fe) ∈ t.owned.objects → bufs p = some buf → fe.object.map GitObject.getBlobContent = some buf

/-- A buffer keeps what it has, and is filled with the contents. -/
theorem fill_eq_ok {p : Ptr Str} {bufs bufs' : Buffers} {buf : Str} (h : fe.fill p bufs = .ok (buf, bufs')) :
    bufs p = some buf ∧ bufs' = bufs ∨
      fe.object.map GitObject.getBlobContent = some buf ∧ bufs' = Function.update bufs p (some buf) := by
  rw [FileElement.fill] at h
  split at h
  · next b _ h_b =>
    obtain ⟨rfl, rfl⟩ := Prod.mk.inj (Except.ok.inj h)
    exact .inl ⟨h_b, rfl⟩
  · next _ b h_b h_object =>
    obtain ⟨rfl, rfl⟩ := Prod.mk.inj (Except.ok.inj h)
    exact .inr ⟨by rw [h_object]; rfl, rfl⟩
  · cases h

theorem read_eq_ok_iff {p : Ptr Str} {size offset : ℕ} {r : ℤ × Str} :
    fe.read p size offset bufs = .ok (r, bufs') ↔
    ∃ buf, fe.fill p bufs = .ok (buf, bufs') ∧ readString buf size offset = some r := by
  unfold FileElement.read
  rw [bind_eq_ok_iff]
  constructor
  · rintro ⟨⟨buf, bufs''⟩, h_fill, h⟩
    dsimp only at h
    split at h
    · cases h
    · next h_read =>
      obtain ⟨rfl, rfl⟩ := Prod.mk.inj (Except.ok.inj h)
      exact ⟨buf, h_fill, h_read⟩
  · rintro ⟨buf, h_fill, h_read⟩
    refine ⟨(buf, bufs'), h_fill, ?_⟩
    dsimp only
    rw [h_read]

/-- What is filled stays so. -/
theorem Filled.fill (h : Filled t bufs) (h_sound : t.owned.Sound) {p : Ptr Str} (hp : (p, fe) ∈ t.owned.objects)
    {buf : Str} (h_fill : fe.fill p bufs = .ok (buf, bufs')) : Filled t bufs' := by
  obtain ⟨-, rfl⟩ | ⟨h_object, rfl⟩ := fill_eq_ok h_fill
  · exact h
  · intro p' fe' b hp' h_b
    by_cases h_p : p' = p
    · subst h_p
      rw [Function.update_self] at h_b
      obtain rfl : fe' = fe := congrArg Prod.snd (h_sound.eq_of_loc hp' hp rfl)
      rw [h_object, h_b]
    · rw [Function.update_of_ne h_p] at h_b
      exact h p' fe' b hp' h_b

/-- It is the contents of the blob that a read copies. -/
theorem Filled.exists_fill (h : Filled t bufs) {p : Ptr Str} (hp : (p, fe) ∈ t.owned.objects) {blob : Str}
    (h_object : fe.object = some (.blob blob)) : ∃ bufs', fe.fill p bufs = .ok (blob, bufs') := by
  rw [FileElement.fill]
  cases h_buf : bufs p with
  | none =>
    simp only [h_object]
    exact ⟨_, rfl⟩
  | some buf =>
    have h_content := h p fe buf hp h_buf
    rw [h_object] at h_content
    obtain rfl := Option.some.inj h_content
    exact ⟨bufs, rfl⟩

theorem Shows.mem_of_get (h : Shows nodes t) {key : Str} {p : Ptr Str}
    (h_get : t.get key = .ok (some (p, fe))) :
    (p, fe) ∈ t.owned.objects := by
  rw [GitTree.get] at h_get
  split at h_get
  · cases h_get
  · split at h_get
    · cases h_get
    · next h_deref =>
      obtain ⟨rfl, rfl⟩ := Prod.mk.inj (Option.some.inj (Except.ok.inj h_get))
      exact h.sound.deref_eq_some_iff.mp h_deref

theorem Asks.filled (h : Asks t bufs bufs') (h_shows : Shows nodes t) (h_filled : Filled t bufs) :
    Filled t bufs' := by
  obtain ⟨path, size, offset, result, h_read⟩ := h
  rw [GitTree.fsRead] at h_read
  split_ifs at h_read
  · obtain ⟨-, rfl⟩ := Prod.mk.inj (Except.ok.inj h_read)
    exact h_filled
  · obtain ⟨found, h_get, h_read⟩ := bind_eq_ok_iff.mp h_read
    cases found with
    | none =>
      obtain ⟨-, rfl⟩ := Prod.mk.inj (Except.ok.inj h_read)
      exact h_filled
    | some x =>
      obtain ⟨p, fe⟩ := x
      dsimp only at h_read
      obtain ⟨⟨r, bufs''⟩, h_element, h_eq⟩ := bind_eq_ok_iff.mp h_read
      obtain ⟨-, rfl⟩ := Prod.mk.inj (Except.ok.inj h_eq)
      obtain ⟨buf, h_fill, -⟩ := read_eq_ok_iff.mp h_element
      exact h_filled.fill h_shows.sound (h_shows.mem_of_get h_get) h_fill

theorem Asked.filled (h : Asked t bufs) (h_shows : Shows nodes t) : Filled t bufs := by
  induction h with
  | refl => exact fun p fe buf _ h_buf => by cases h_buf
  | tail _ h_asks ih => exact h_asks.filled h_shows ih

/-- **A blob is read right**, whatever has been read before. -/
theorem Shows.serves (h : Shows nodes t) (h_mem : (q, fe) ∈ nodes) (hq : q ≠ []) {blob : Str}
    (h_object : fe.object = some (.blob blob)) :
    Buffer.Serves (t.reader (render q)) (Filled t) blob 0x100000000 0x8000000000000000 := by
  intro bufs h_filled size h_size offset h_offset
  obtain ⟨p, -, h_files, h_deref⟩ := h.files_of_mem h_mem
  have h_p : (p, fe) ∈ t.owned.objects := h.sound.deref_eq_some_iff.mp h_deref
  have h_get : t.get (fullpath q) = .ok (some (p, fe)) := by
    rw [GitTree.get, h_files]
    simp only [h_deref]
  obtain ⟨bufs', h_fill⟩ := h_filled.exists_fill h_p h_object
  refine ⟨bufs', h_filled.fill h.sound h_p h_fill, ?_⟩
  have h_read : t.fsRead (render q) size offset bufs = .ok (.ok
      ((Buffer.count blob size offset : ℤ),
        (blob.drop offset).take (Buffer.count blob size offset)), bufs') := by
    unfold GitTree.fsRead
    rw [render_eq_cons hq, if_neg (by simp), List.drop_one, List.tail_cons, h_get, ok_bind]
    dsimp only
    rw [read_eq_ok_iff.mpr ⟨blob, h_fill, readString_eq (by omega)⟩, ok_bind]
  dsimp only [GitTree.reader]
  rw [h_read]

/-! ### From the commit to the client -/

/-- **A commit is mounted.** The constructor comes to its end, and a client that walks the mount finds the
entries of the trees at their paths, each once, and nothing else; a mode that is a `git_filemode_t` is shown as
it is. The client can open and read the blobs, and gets their contents, whatever has been read before. -/
theorem mounted_tree (h_wf : WellFormed es) (h_git : ∀ q e, At es q e → git.Documents e)
    (h_stores : ∀ q e, At es q e → git.Stores e) (h_looked : ∀ q e, At es q e → ∀ n ∈ q, Looked n) :
    ∃ t, GitTree.make git es = .ok t ∧
      (∀ depth, ((clientFind t depth).map Prod.fst).Nodup ∧
        ∀ q st, (q, st) ∈ clientFind t depth ↔ q.length ≤ depth ∧ Found git es q st) ∧
      ∀ q mode sha size blob, At es q (.blob mode sha size) →
        git.entryToObject (.blob mode sha size) = some (.blob blob) →
        (mode ∈ blobModes → statOf git (.blob mode sha size) = fileStat mode (toInt blob.length)) ∧
          (blob.length < 0x8000000000000000 → t.fsOpen (render q) = .ok () ∧
            ∀ bufs, Asked t bufs → ReadsAs (t.reader (render q)) bufs blob 0x100000000 0x8000000000000000) := by
  obtain ⟨t, h_make, h_shows⟩ := exists_make h_wf h_git h_stores
  have h_serves := h_shows.servesTree h_wf h_git
  refine ⟨t, h_make, fun depth => ⟨h_serves.nodup_find depth, fun q st => ?_⟩,
    fun q mode sha size blob h_at h_blob => ⟨fun h_mode => ?_, fun h_length => ⟨?_, fun bufs h_asked => ?_⟩⟩⟩
  · refine h_serves.mem_find_iff.trans (and_congr_right fun _ => and_iff_right_of_imp fun h_found => ?_)
    cases h_found with
    | root => exact fun n hn => absurd hn List.not_mem_nil
    | entry h_at => exact h_looked q _ h_at
  · obtain ⟨blob', h_blob', rfl⟩ := h_stores q _ h_at
    obtain rfl := GitObject.blob.inj (Option.some.inj (h_blob.symm.trans h_blob'))
    rw [statOf, (h_git q _ h_at).2.2 h_mode]
    · rfl
    · exact fun sha' es' h_eq => Entry.noConfusion h_eq
  · obtain ⟨p, -, h_files, -⟩ := h_shows.files_of_mem (mem_elements.mpr (.inr ⟨_, h_at, rfl⟩))
    rw [GitTree.fsOpen, render_eq_cons h_at.ne_nil, if_neg (by simp), List.drop_one, List.tail_cons, h_files]
    rfl
  · have h_object : (entryElement git (.blob mode sha size)).object = some (.blob blob) :=
      (if_pos (h_git q _ h_at).1).trans h_blob
    exact (h_shows.serves (mem_elements.mpr (.inr ⟨_, h_at, rfl⟩)) h_at.ne_nil h_object).readsAs h_length
      (h_asked.filled h_shows)

/-! ### A small commit -/

/-- A directory with a file that can be executed and a symlink to it. -/
def sampleBin : List (Str × Entry) :=
  [(str "run", .blob 0x81ed (str "8ab6") 2), (str "r", .blob 0xa000 (str "1910") 3)]

/-- The tree of the commit: a file with a mode that is normalized, the directory, and a submodule. -/
def sampleTree : List (Str × Entry) :=
  [(str "README", .blob 0x81b4 (str "f313") 5), (str "bin", .tree (str "4b82") sampleBin),
    (str "m", .commit (str "9fa1"))]

/-- What libgit2 answers in this repository. -/
def sampleGit : Libgit2 where
  entryType
    | .blob _ _ _ => .blob
    | .commit _ => .commit
    | .tree _ _ => .tree
  entryFilemode
    | .blob mode _ _ => if mode ∈ blobModes then mode else 0x81a4
    | .commit _ => 0xe000
    | .tree _ _ => 0x4000
  entryId
    | .blob _ sha _ => sha
    | .commit sha => sha
    | .tree sha _ => sha
  entryToObject
    | .blob _ sha _ =>
      if sha = str "f313" then some (.blob (str "hello"))
      else if sha = str "8ab6" then some (.blob (str "#!"))
      else if sha = str "1910" then some (.blob (str "run"))
      else none
    | .commit _ => none
    | .tree _ _ => some .tree

theorem sampleGit_documents (e : Entry) : sampleGit.Documents e := by
  cases e with
  | blob mode sha size =>
    refine ⟨rfl, ?_, fun h_mode => if_pos h_mode⟩
    by_cases h_mode : mode ∈ blobModes
    · rwa [show sampleGit.entryFilemode (.blob mode sha size) = mode from if_pos h_mode]
    · rw [show sampleGit.entryFilemode (.blob mode sha size) = 0x81a4 from if_neg h_mode]
      decide
  | commit sha => exact ⟨rfl, rfl⟩
  | tree sha es => exact ⟨rfl, rfl⟩

/-- The entries of the commit, with their paths. -/
def sampleNodes : List (List Str × Entry) :=
  [([str "README"], .blob 0x81b4 (str "f313") 5), ([str "bin"], .tree (str "4b82") sampleBin),
    ([str "bin", str "run"], .blob 0x81ed (str "8ab6") 2), ([str "bin", str "r"], .blob 0xa000 (str "1910") 3),
    ([str "m"], .commit (str "9fa1"))]

theorem at_sampleTree : At sampleTree q e ↔ (q, e) ∈ sampleNodes := by
  have h_preorder : preorder sampleTree = sampleNodes := by
    simp only [sampleTree, sampleBin, sampleNodes, preorder, List.map_cons, List.map_nil, List.cons_append,
      List.nil_append]
  rw [← h_preorder, mem_preorder]

theorem sampleTree_wellFormed : WellFormed sampleTree := by
  refine ⟨⟨by decide, by decide⟩, fun q sha es' h_at => ?_⟩
  rw [at_sampleTree] at h_at
  simp only [sampleNodes, List.mem_cons, List.not_mem_nil, Prod.mk.injEq, reduceCtorEq, Entry.tree.injEq,
    and_false, or_false, false_or] at h_at
  obtain ⟨-, -, rfl⟩ := h_at
  exact ⟨by decide, by decide⟩

theorem sampleGit_stores : ∀ x ∈ sampleNodes, sampleGit.Stores x.2 := by
  simp only [sampleNodes, List.forall_mem_cons]
  exact ⟨⟨str "hello", rfl, rfl⟩, rfl, ⟨str "#!", rfl, rfl⟩, ⟨str "run", rfl, rfl⟩, trivial,
    fun x hx => absurd hx List.not_mem_nil⟩

theorem mounted_tree_sample :
    ∃ t, GitTree.make sampleGit sampleTree = .ok t ∧
      (∀ depth, ((clientFind t depth).map Prod.fst).Nodup ∧
        ∀ q st, (q, st) ∈ clientFind t depth ↔ q.length ≤ depth ∧ Found sampleGit sampleTree q st) ∧
      ∀ q mode sha size blob, At sampleTree q (.blob mode sha size) →
        sampleGit.entryToObject (.blob mode sha size) = some (.blob blob) →
        (mode ∈ blobModes → statOf sampleGit (.blob mode sha size) = fileStat mode (toInt blob.length)) ∧
          (blob.length < 0x8000000000000000 → t.fsOpen (render q) = .ok () ∧
            ∀ bufs, Asked t bufs → ReadsAs (t.reader (render q)) bufs blob 0x100000000 0x8000000000000000) := by
  have h_looked : ∀ x ∈ sampleNodes, ∀ n ∈ x.1, Looked n := by decide
  exact mounted_tree sampleTree_wellFormed (fun _ e _ => sampleGit_documents e)
    (fun _ _ h_at => sampleGit_stores _ (at_sampleTree.mp h_at))
    fun _ _ h_at => h_looked _ (at_sampleTree.mp h_at)

end GitlstreeFS.Gitfs
