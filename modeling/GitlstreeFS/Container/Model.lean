import GitlstreeFS.Text
import Mathlib.Data.List.Nodup

/-!
# The directory container

`directory_container.cc` holds the same objects twice. Each `Directory` owns its entries through
`unique_ptr`s, from `root_` down, and `files_` maps full paths to raw pointers.

* The owned objects are a tree (`Node`): an object lives exactly as long as it is in the tree, so
  replacing an entry destroys the object that was there with everything below it.
* Objects do not move. A raw pointer (`Ptr`) is therefore the place of an object in the tree and
  its address, a number that is never used twice; `deref` finds the object if it still exists.
* Inserting through a pointer to an object that is gone, or that a `static_cast` took for a
  `Directory`, is undefined (`Misuse`).

A `File` that is no `Directory` is an `F`, about which nothing is assumed.
-/

namespace GitlstreeFS.DirectoryContainer

variable {F : Type}

/-! ### Files and directories -/

/-- An object with its address: a `File`, or a `Directory` with its entries. -/
inductive Node (F : Type) where
  | file (addr : ℕ) (f : F)
  | dir (addr : ℕ) (entries : List (Str × Node F))

/-- A `File` as it is handed over to `add`; a `Directory` is handed over empty. -/
inductive NewFile (F : Type) where
  | file (f : F)
  | dir
  deriving DecidableEq, Repr

def Node.addr : Node F → ℕ
  | .file a _ => a
  | .dir a _ => a

/-- What an object is, apart from its entries. -/
def Node.kind : Node F → NewFile F
  | .file _ f => .file f
  | .dir _ _ => .dir

/-- The object at an address. -/
def NewFile.at (a : ℕ) : NewFile F → Node F
  | .file f => .file a f
  | .dir => .dir a []

@[simp] theorem NewFile.at_addr (a : ℕ) (x : NewFile F) : (x.at a).addr = a := by
  cases x <;> rfl

@[simp] theorem NewFile.at_kind (a : ℕ) (x : NewFile F) : (x.at a).kind = x := by
  cases x <;> rfl

/-- `files_[n] = move(t)` in a `Directory`. -/
def insertEntry (n : Str) (t : Node F) (es : List (Str × Node F)) : List (Str × Node F) :=
  (n, t) :: es.filter fun e => e.1 ≠ n

/-- `Directory::add`. -/
def Node.add (n : Str) (t : Node F) : Node F → Node F
  | .file a f => .file a f
  | .dir a es => .dir a (insertEntry n t es)

/-- Descend component by component, each time with `Directory::get`. -/
def Node.descend : Node F → List Str → Option (Node F)
  | t, [] => some t
  | .file _ _, _ :: _ => none
  | .dir _ es, n :: q =>
    match es.lookup n with
    | some t => t.descend q
    | none => none

/-- Change the object at a place of the tree. -/
def Node.modify (g : Node F → Node F) : Node F → List Str → Node F
  | t, [] => g t
  | .file a f, _ :: _ => .file a f
  | .dir a es, n :: q => .dir a (es.map fun e => if e.1 = n then (e.1, e.2.modify g q) else e)

/-! ### The container -/

/-- A pointer to an object: its place and its address. -/
structure Ptr where
  loc : List Str
  addr : ℕ
  deriving DecidableEq, Repr

/-- `&root_`. -/
def rootPtr : Ptr := ⟨[], 0⟩

/-- `DirectoryContainer`. -/
structure Container (F : Type) where
  /-- `files_` -/
  files : Str → Option Ptr
  /-- `root_` -/
  root : Node F
  /-- The next address. -/
  next : ℕ

/-- An access C++ leaves undefined. -/
inductive Misuse where
  | destroyed
  | notDirectory
  deriving DecidableEq, Repr

namespace Container

/-- The constructor. -/
def empty : Container F :=
  ⟨Function.update (fun _ => none) [slash] (some rootPtr), .dir 0 [], 1⟩

variable (c : Container F)

/-- The object of a pointer, if it still exists. -/
def deref (ptr : Ptr) : Option (Node F) :=
  (c.root.descend ptr.loc).filter fun t => t.addr = ptr.addr

/-- `dir->add(n, t)`. -/
def addTo (dir : Ptr) (n : Str) (t : Node F) : Except Misuse (Container F) :=
  match c.deref dir with
  | none => .error .destroyed
  | some (.file _ _) => .error .notDirectory
  | some (.dir _ _) => .ok { c with root := c.root.modify (Node.add n t) dir.loc }

/-- `files_[path] = t; dir->add(n, t)` for the new object `x`. -/
def place (path : Str) (dir : Ptr) (n : Str) (a : ℕ) (x : NewFile F) :
    Except Misuse (Container F × Ptr) :=
  match { c with files := Function.update c.files path (some ⟨dir.loc ++ [n], a⟩) }.addTo
      dir n (x.at a) with
  | .error e => .error e
  | .ok c' => .ok (c', ⟨dir.loc ++ [n], a⟩)

/-- `MaybeCreateParentDir`. The first argument bounds the recursion: `DirName` makes a name
shorter, and the empty name is the root's. -/
def maybeCreateParentDir : ℕ → Container F → Str → Except Misuse (Container F × Ptr)
  | 0, c, _ => .ok (c, rootPtr)
  | k + 1, c, dirname =>
    if dirname = [] then .ok (c, rootPtr)
    else
      match c.files dirname with
      | some ptr => .ok (c, ptr)
      | none =>
        -- `new Directory()` comes first, its parent is looked for after that
        let parent := dirName dirname
        let c₁ : Container F := { c with next := c.next + 1 }
        let found : Except Misuse (Container F × Ptr) :=
          match c₁.files parent with
          | some ptr => .ok (c₁, ptr)
          | none => maybeCreateParentDir k c₁ parent
        match found with
        | .error e => .error e
        | .ok (c₂, dir) => c₂.place dirname dir (baseName dirname) c.next .dir

/-- `DirectoryContainer::add`. -/
def add (path : Str) (x : NewFile F) : Except Misuse (Container F) :=
  match maybeCreateParentDir (dirName path).length c (dirName path) with
  | .error e => .error e
  | .ok (c', dir) =>
    match { c' with next := c'.next + 1 }.place path dir (baseName path) c'.next x with
    | .error e => .error e
    | .ok (c'', _) => .ok c''

/-- `get` and `mutable_get`. -/
def get (path : Str) : Option Ptr :=
  c.files path

/-- `is_directory`, where the pointer that was found may be used. -/
def isDirectory (path : Str) : Bool :=
  match c.files path with
  | none => false
  | some ptr =>
    match c.deref ptr with
    | some (.dir _ _) => true
    | _ => false

/-- The callbacks of `for_each`, in the order of the entries. -/
def forEach (path : Str) : List (Str × Node F) :=
  match c.get path with
  | none => []
  | some ptr =>
    match c.deref ptr with
    | some (.dir _ es) => es
    | _ => []

/-- A sequence of `add` calls with the paths of the given components. -/
def addAll : Container F → List (List Str × NewFile F) → Except Misuse (Container F)
  | c, [] => .ok c
  | c, (p, x) :: adds =>
    match c.add (render p) x with
    | .error e => .error e
    | .ok c' => addAll c' adds

end Container

/-! ### The tree -/

variable {t u : Node F} {q q' p : List Str} {n : Str} {es : List (Str × Node F)}

theorem lookup_insertEntry (m : Str) :
    (insertEntry n t es).lookup m = if m = n then some t else es.lookup m := by
  unfold insertEntry
  rw [List.lookup_cons]
  by_cases h : m = n
  · simp [h]
  · have h_filter : (es.filter fun e => e.1 ≠ n).lookup m = es.lookup m := by
      induction es with
      | nil => rfl
      | cons e es ih =>
        by_cases he : e.1 = n
        · have h_ne : (m == e.1) = false := by simpa [he] using h
          rw [List.filter_cons_of_neg (by simp [he]), List.lookup_cons, h_ne, ih]
        · rw [List.filter_cons_of_pos (by simp [he]), List.lookup_cons, List.lookup_cons, ih]
    have h_ne : (m == n) = false := by simpa using h
    rw [h_ne, h_filter, if_neg h]

theorem lookup_map_modify (g : Node F → Node F) (m : Str) :
    (es.map fun e => if e.1 = n then (e.1, e.2.modify g q) else e).lookup m
      = if m = n then (es.lookup n).map fun t => t.modify g q else es.lookup m := by
  induction es with
  | nil => simp
  | cons e es ih =>
    obtain ⟨k, t⟩ := e
    rw [List.map_cons]
    by_cases hk : k = n
    · subst hk
      rw [if_pos rfl, List.lookup_cons, List.lookup_cons, List.lookup_cons, ih]
      by_cases hm : m = k
      · simp [hm]
      · have h_ne : (m == k) = false := by simpa using hm
        simp [h_ne, hm]
    · rw [if_neg hk, List.lookup_cons, List.lookup_cons, ih]
      by_cases hm : m = k
      · subst hm
        simp [hk]
      · have h_ne : (m == k) = false := by simpa using hm
        by_cases hn : m = n
        · subst hn
          have h_ne' : (m == k) = false := h_ne
          simp [h_ne']
        · simp [List.lookup_cons, h_ne, hn]

/-- The names in a directory are different. -/
def Node.NodupNames : Node F → Prop
  | .file _ _ => True
  | .dir _ es => (es.map Prod.fst).Nodup

/-- The same object, in which at most the entries have changed. -/
structure Node.Like (t u : Node F) : Prop where
  addr : u.addr = t.addr
  kind : u.kind = t.kind
  nodup : t.NodupNames → u.NodupNames

theorem Node.Like.refl (t : Node F) : t.Like t :=
  ⟨rfl, rfl, id⟩

theorem rel_like_refl : ∀ o : Option (Node F), Option.Rel Node.Like o o
  | none => .none
  | some t => .some (.refl t)

theorem like_add (n : Str) (x t : Node F) : t.Like (Node.add n x t) := by
  cases t with
  | file a f => exact .refl _
  | dir a es =>
    refine ⟨rfl, rfl, fun h => ?_⟩
    have h_names : (insertEntry n x es).map Prod.fst = n :: (es.map Prod.fst).filter (· ≠ n) := by
      simp [insertEntry, List.filter_map, Function.comp_def]
    change (List.map Prod.fst (insertEntry n x es)).Nodup
    rw [h_names, List.nodup_cons]
    exact ⟨by simp, List.Nodup.filter _ h⟩

theorem descend_append (t : Node F) (p q : List Str) :
    t.descend (p ++ q) = (t.descend p).bind fun u => u.descend q := by
  induction p generalizing t with
  | nil => rfl
  | cons n p ih =>
    cases t with
    | file a f => rfl
    | dir a es =>
      rw [List.cons_append, Node.descend, Node.descend]
      rcases es.lookup n with _ | t'
      · rfl
      · exact ih t'

/-- Below the place of the change things are as in the changed object. -/
theorem descend_modify (g : Node F → Node F) (h : t.descend p = some u) (q : List Str) :
    (t.modify g p).descend (p ++ q) = (g u).descend q := by
  induction p generalizing t with
  | nil =>
    obtain rfl : t = u := by simpa [Node.descend] using h
    simp [Node.modify]
  | cons n p ih =>
    cases t with
    | file a f => simp [Node.descend] at h
    | dir a es =>
      rw [Node.descend] at h
      rcases h_entry : es.lookup n with _ | t'
      · simp [h_entry] at h
      · rw [h_entry] at h
        rw [Node.modify, List.cons_append, Node.descend, lookup_map_modify, if_pos rfl, h_entry]
        exact ih h

/-- The new entry and what is below it. -/
theorem descend_add {a : ℕ} {x : Node F} (h : t.descend p = some (.dir a es)) (q : List Str) :
    (t.modify (Node.add n x) p).descend (p ++ [n] ++ q) = x.descend q := by
  rw [List.append_assoc, descend_modify _ h, Node.add, List.singleton_append, Node.descend,
    lookup_insertEntry, if_pos rfl]

/-- Everywhere else there are the same objects as before. -/
theorem rel_descend_add {a : ℕ} {x : Node F} (h : t.descend p = some (.dir a es))
    (hq : ¬ p ++ [n] <+: q) :
    Option.Rel Node.Like (t.descend q) ((t.modify (Node.add n x) p).descend q) := by
  -- on the path to the directory; beside it the tree is the same
  induction p generalizing t q with
  | nil =>
    obtain rfl : t = .dir a es := by simpa [Node.descend] using h
    cases q with
    | nil => exact .some (like_add n x (.dir a es))
    | cons m q =>
      have h_ne : m ≠ n := by
        rintro rfl
        exact hq ⟨q, rfl⟩
      rw [Node.modify, Node.add, Node.descend, Node.descend, lookup_insertEntry, if_neg h_ne]
      exact rel_like_refl _
  | cons k p ih =>
    cases t with
    | file b f => simp [Node.descend] at h
    | dir b es' =>
      rw [Node.descend] at h
      rcases h_entry : es'.lookup k with _ | t'
      · simp [h_entry] at h
      rw [h_entry] at h
      cases q with
      | nil =>
        -- a directory on the way keeps the names of its entries
        refine .some ⟨rfl, rfl, fun h_nodup => ?_⟩
        have h_names : (es'.map fun e => if e.1 = k then (e.1, e.2.modify (Node.add n x) p) else e).map
            Prod.fst = es'.map Prod.fst := by
          rw [List.map_map]
          refine List.map_congr_left fun e _ => ?_
          simp only [Function.comp_apply]
          split <;> rfl
        change (List.map Prod.fst (es'.map _)).Nodup
        rw [h_names]
        exact h_nodup
      | cons m q =>
        rw [Node.modify, Node.descend, Node.descend, lookup_map_modify]
        by_cases hm : m = k
        · subst hm
          rw [if_pos rfl, h_entry]
          exact ih h fun h_pre => hq (List.cons_prefix_cons.mpr ⟨rfl, h_pre⟩)
        · rw [if_neg hm]
          exact rel_like_refl _

theorem exists_like_of_descend_add {a : ℕ} {x : Node F} (h : t.descend p = some (.dir a es))
    (hq : ¬ p ++ [n] <+: q) (hu : (t.modify (Node.add n x) p).descend q = some u) :
    ∃ t', t.descend q = some t' ∧ t'.Like u := by
  have h_rel := rel_descend_add (x := x) h hq
  rw [hu] at h_rel
  generalize t.descend q = o at h_rel
  cases h_rel with
  | some h_like => exact ⟨_, rfl, h_like⟩

theorem kind_descend_add {a : ℕ} {x : Node F} (h : t.descend p = some (.dir a es))
    (hq : ¬ p ++ [n] <+: q) :
    ((t.modify (Node.add n x) p).descend q).map Node.kind = (t.descend q).map Node.kind := by
  have h_rel := rel_descend_add (x := x) h hq
  generalize t.descend q = o at h_rel ⊢
  generalize (t.modify (Node.add n x) p).descend q = o' at h_rel ⊢
  cases h_rel with
  | none => rfl
  | some h_like => exact congrArg some h_like.kind

/-- Nothing is below a new object. -/
theorem descend_at_cons (x : NewFile F) (a : ℕ) (m : Str) (q : List Str) :
    (x.at a).descend (m :: q) = none := by
  cases x <;> rfl

end GitlstreeFS.DirectoryContainer
