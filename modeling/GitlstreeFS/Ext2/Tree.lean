import GitlstreeFS.Container.PathSet
import GitlstreeFS.Ext2.Model

/-!
# The directory tree

`Listed` is what the directories of an image say, from an entry on: the names and what they are, with what
is below them, in the order in which `WalkDir` comes to them. The records of each directory cover its
first block, and as the derivation ends, so does the recursion.

`WalkDir` adds the files and nothing else (`walkFrom_eq`). A directory is there as an ancestor of what is
added, so that all directories are mounted just if each of them has a file below it
(`mountsCompletely_iff`).
-/

namespace GitlstreeFS.Ext2

open DirectoryContainer

/-! ### Images -/

/-- What a name stands for: a directory, or another file, with the place of its inode. -/
inductive Kind where
  | dir
  | file (inode : ℤ)
  deriving DecidableEq, Repr

/-- A directory entry at `dirent`, and the next one behind it, within a block that ends at `limit`. -/
structure Record (m : Str) (limit dirent next : ℤ) (name : Str) (inode : ℕ) : Prop where
  number : le32 m dirent = .ok inode
  /-- The entry is in use. -/
  used : inode ≠ 0
  /-- `rec_len` -/
  length : ∃ rec_len, le16 m (dirent + 4) = .ok rec_len ∧ 8 + name.length ≤ rec_len ∧ 4 ∣ rec_len
    ∧ next = dirent + rec_len ∧ next ≤ limit
  /-- `name_len` -/
  nameLength : u8 m (dirent + 6) = .ok name.length
  name : bytes m (dirent + 8) name.length = .ok name

/-- **What a directory has**, from an entry on: the paths from there, and what they are. -/
inductive Listed (reader : Ext2Reader) : ℤ → ℤ → List (List Str × Kind) → Prop where
  | done {limit : ℤ} : Listed reader limit limit []
  /-- The entries `.` and `..` -/
  | dots {limit dirent next : ℤ} {name : Str} {number : ℕ} {nodes : List (List Str × Kind)}
      (h_record : Record reader.map limit dirent next name number)
      (h_dots : name = str "." ∨ name = str "..") (h_rest : Listed reader limit next nodes) :
      Listed reader limit dirent nodes
  /-- A file that is no directory -/
  | file {limit dirent next inode : ℤ} {name : Str} {number mode : ℕ} {nodes : List (List Str × Kind)}
      (h_record : Record reader.map limit dirent next name number)
      (h_name : IsName name) (h_dots : name ≠ str "." ∧ name ≠ str "..")
      (h_inode : inodeOf reader number = .ok inode) (h_mode : Ext2.mode reader.map inode = .ok mode)
      (h_file : mode &&& sIFMT ≠ sIFDIR) (h_rest : Listed reader limit next nodes)
      (h_new : ∀ x ∈ nodes, x.1.head? ≠ some name) :
      Listed reader limit dirent (([name], .file inode) :: nodes)
  /-- A directory, whose entries are in its first block -/
  | dir {limit dirent next inode : ℤ} {name : Str} {number mode first : ℕ}
      {below nodes : List (List Str × Kind)}
      (h_record : Record reader.map limit dirent next name number)
      (h_name : IsName name) (h_dots : name ≠ str "." ∧ name ≠ str "..")
      (h_inode : inodeOf reader number = .ok inode) (h_mode : Ext2.mode reader.map inode = .ok mode)
      (h_dir : mode &&& sIFMT = sIFDIR) (h_block : block reader.map inode 0 = .ok first)
      (h_below : Listed reader (readBlock reader first + reader.blockSize) (readBlock reader first) below)
      (h_rest : Listed reader limit next nodes) (h_new : ∀ x ∈ nodes, x.1.head? ≠ some name) :
      Listed reader limit dirent
        (([name], .dir) :: (below.map fun x => (name :: x.1, x.2)) ++ nodes)

variable {reader : Ext2Reader} {limit dirent : ℤ} {nodes : List (List Str × Kind)} {q p : List Str}
  {kind : Kind}

/-! ### The paths of an image -/

/-- The paths are paths. -/
theorem Listed.isPath (h : Listed reader limit dirent nodes) : ∀ x ∈ nodes, IsPath x.1 := by
  induction h with
  | done => exact fun x hx => absurd hx List.not_mem_nil
  | dots _ _ _ ih => exact ih
  | file _ h_name _ _ _ _ _ _ ih =>
    intro x hx
    obtain rfl | hx := List.mem_cons.mp hx
    · exact ⟨List.cons_ne_nil _ _, fun n hn => List.mem_singleton.mp hn ▸ h_name⟩
    · exact ih x hx
  | dir _ h_name _ _ _ _ _ _ _ _ ih_below ih_rest =>
    intro x hx
    obtain hx | hx := List.mem_append.mp hx
    · obtain rfl | hx := List.mem_cons.mp hx
      · exact ⟨List.cons_ne_nil _ _, fun n hn => List.mem_singleton.mp hn ▸ h_name⟩
      · obtain ⟨y, hy, rfl⟩ := List.mem_map.mp hx
        refine ⟨List.cons_ne_nil _ _, fun n hn => ?_⟩
        obtain rfl | hn := List.mem_cons.mp hn
        · exact h_name
        · exact (ih_below y hy).isName n hn
    · exact ih_rest x hx

/-- No path is there twice. -/
theorem Listed.nodup (h : Listed reader limit dirent nodes) : (nodes.map Prod.fst).Nodup := by
  induction h with
  | done => exact List.nodup_nil
  | dots _ _ _ ih => exact ih
  | @file limit dirent next inode name number mode nodes _ _ _ _ _ _ _ h_new ih =>
    rw [List.map_cons, List.nodup_cons]
    refine ⟨fun h_mem => ?_, ih⟩
    obtain ⟨x, hx, h_eq⟩ := List.mem_map.mp h_mem
    exact h_new x hx (by rw [h_eq]; rfl)
  | @dir limit dirent next inode name number mode first below nodes _ _ _ _ _ _ _ h_below _ h_new ih_below
      ih_rest =>
    have h_map : (below.map fun x : List Str × Kind => (name :: x.1, x.2)).map Prod.fst
        = (below.map Prod.fst).map (name :: ·) := by
      rw [List.map_map, List.map_map]
      rfl
    rw [List.map_append, List.map_cons, h_map, List.nodup_append, List.nodup_cons]
    refine ⟨⟨fun h_mem => ?_, ih_below.map List.cons_injective⟩, ih_rest, fun p hp p' hp' => ?_⟩
    · -- nothing below the directory has its path
      obtain ⟨p, hp, h_eq⟩ := List.mem_map.mp h_mem
      obtain ⟨x, hx, rfl⟩ := List.mem_map.mp hp
      exact (h_below.isPath x hx).ne_nil (List.cons.inj h_eq).2
    · rintro rfl
      obtain ⟨x, hx, rfl⟩ := List.mem_map.mp hp'
      refine h_new x hx ?_
      obtain h_eq | hp := List.mem_cons.mp hp
      · rw [h_eq]
        rfl
      · obtain ⟨p, -, h_eq⟩ := List.mem_map.mp hp
        rw [← h_eq]
        rfl

/-- What is above a path is a directory. -/
theorem Listed.above (h : Listed reader limit dirent nodes) (h_mem : (p, kind) ∈ nodes) (hq : q ≠ [])
    (h_pre : q <+: p) (h_ne : q ≠ p) : (q, Kind.dir) ∈ nodes := by
  have h_name : ∀ {q : List Str} {n : Str}, q ≠ [] → q <+: [n] → q = [n] := by
    intro q n hq h
    exact h.eq_of_length_le (List.length_pos_iff.mpr hq)
  induction h generalizing p q with
  | done => exact absurd h_mem List.not_mem_nil
  | dots _ _ _ ih => exact ih h_mem hq h_pre h_ne
  | file _ _ _ _ _ _ _ _ ih =>
    obtain h_eq | h_mem := List.mem_cons.mp h_mem
    · obtain ⟨rfl, -⟩ := Prod.mk.inj h_eq
      exact absurd (h_name hq h_pre) h_ne
    · exact List.mem_cons_of_mem _ (ih h_mem hq h_pre h_ne)
  | dir _ _ _ _ _ _ _ _ _ _ ih_below ih_rest =>
    rw [List.mem_append, List.mem_cons] at h_mem
    obtain (h_eq | h_mem) | h_mem := h_mem
    · obtain ⟨rfl, -⟩ := Prod.mk.inj h_eq
      exact absurd (h_name hq h_pre) h_ne
    · -- a path below the directory: what is above it is the directory, or below it too
      obtain ⟨⟨p', kind'⟩, h_below, h_eq⟩ := List.mem_map.mp h_mem
      obtain ⟨rfl, rfl⟩ := Prod.mk.inj h_eq
      obtain ⟨n, q, rfl⟩ := List.exists_cons_of_ne_nil hq
      obtain ⟨rfl, h_pre'⟩ := List.cons_prefix_cons.mp h_pre
      refine List.mem_append_left _ ?_
      by_cases h_nil : q = []
      · rw [h_nil]
        exact List.mem_cons_self
      · have h_dir := ih_below h_below h_nil h_pre' fun h_eq => h_ne (congrArg _ h_eq)
        exact List.mem_cons_of_mem _ (List.mem_map.mpr ⟨_, h_dir, rfl⟩)
    · exact List.mem_append_right _ (ih_rest h_mem hq h_pre h_ne)

/-- So nothing is below a file. -/
theorem Listed.eq_of_file (h : Listed reader limit dirent nodes) {inode : ℤ}
    (h_file : (p, Kind.file inode) ∈ nodes) (h_mem : (q, kind) ∈ nodes) (h_pre : p <+: q) : p = q := by
  by_contra h_ne
  have h_dir := h.above h_mem (h.isPath _ h_file).ne_nil h_pre h_ne
  have h_inj := List.inj_on_of_nodup_map h.nodup h_file h_dir rfl
  cases (Prod.mk.inj h_inj).2

/-! ### What `WalkDir` does -/

/-- What is done for a path of the directory `q`. -/
def addNode (q : List Str) (walked : Walked) (x : List Str × Kind) : Walked :=
  match x.2 with
  | .dir => walked
  | .file inode => addFile (render (q ++ x.1)) inode walked

/-- The walk over an entry is the walk over the next one. -/
theorem Record.next_eq {m : Str} {next : ℤ} {name : Str} {number : ℕ}
    (h : Record m limit dirent next name number) :
    filename m dirent = .ok name ∧ Ext2.next m dirent = .ok next ∧ dirent < limit := by
  obtain ⟨rec_len, h_length, h_le, -, rfl, h_limit⟩ := h.length
  refine ⟨?_, ?_, by omega⟩
  · rw [filename, h.nameLength]
    exact h.name
  · rw [Ext2.next, h_length]
    rfl

/-- **The walk** over the directory `q` adds the files of it and of what is below it, and does not stop
before. -/
theorem walkFrom_eq (h : Listed reader limit dirent nodes) (q : List Str) :
    ∃ n, ∀ k, n ≤ k → ∀ walked, walkFrom reader k (render q ++ [slash]) limit dirent walked
      = .ok (nodes.foldl (addNode q) walked) := by
  -- on the entries; the fuel is that of the directory below and of the entries behind together
  induction h generalizing q with
  | @done limit =>
    refine ⟨1, fun k hk walked => ?_⟩
    obtain ⟨k, rfl⟩ := Nat.exists_eq_add_of_le' hk
    rw [walkFrom, if_neg (Int.lt_irrefl limit)]
    rfl
  | dots h_record h_dots _ ih =>
    obtain ⟨n, hn⟩ := ih q
    obtain ⟨h_name, h_next, h_lt⟩ := h_record.next_eq
    refine ⟨n + 1, fun k hk walked => ?_⟩
    obtain ⟨k, rfl⟩ := Nat.exists_eq_add_of_le' (Nat.le_trans (Nat.le_add_left 1 n) hk)
    rw [walkFrom, if_pos h_lt, h_name, ok_bind, if_neg fun h => h_dots.elim h.1 h.2, h_next, ok_bind]
    exact hn k (by omega) walked
  | file h_record _ h_dots h_inode h_mode h_file _ _ ih =>
    obtain ⟨n, hn⟩ := ih q
    obtain ⟨h_name, h_next, h_lt⟩ := h_record.next_eq
    refine ⟨n + 1, fun k hk walked => ?_⟩
    obtain ⟨k, rfl⟩ := Nat.exists_eq_add_of_le' (Nat.le_trans (Nat.le_add_left 1 n) hk)
    rw [walkFrom, if_pos h_lt, h_name, ok_bind, if_pos h_dots, h_record.number, ok_bind, h_inode, ok_bind]
    dsimp only
    rw [h_mode, ok_bind, if_neg h_file, h_next, ok_bind, hn k (by omega), List.foldl_cons, addNode,
      render_concat, List.append_assoc]
    rfl
  | @dir limit dirent next inode name number mode first below nodes h_record _ h_dots h_inode h_mode h_dir
      h_block _ _ _ ih_below ih_rest =>
    obtain ⟨n₁, h₁⟩ := ih_below (q ++ [name])
    obtain ⟨n₂, h₂⟩ := ih_rest q
    obtain ⟨h_name, h_next, h_lt⟩ := h_record.next_eq
    refine ⟨n₁ + n₂ + 1, fun k hk walked => ?_⟩
    obtain ⟨k, rfl⟩ := Nat.exists_eq_add_of_le' (Nat.le_trans (Nat.le_add_left 1 (n₁ + n₂)) hk)
    have h_path : render q ++ [slash] ++ name ++ [slash] = render (q ++ [name]) ++ [slash] := by
      rw [render_concat, List.append_assoc (render q)]
      rfl
    rw [walkFrom, if_pos h_lt, h_name, ok_bind, if_pos h_dots, h_record.number, ok_bind, h_inode, ok_bind]
    dsimp only
    rw [h_mode, ok_bind, if_pos h_dir, h_block, ok_bind, h_path, h₁ k (by omega), ok_bind, h_next, ok_bind,
      h₂ k (by omega), List.foldl_append, List.foldl_cons, List.foldl_map]
    -- the names below are told from `q` on
    have h_node : addNode (q ++ [name]) = fun walked x => addNode q walked (name :: x.1, x.2) := by
      funext walked x
      rw [addNode, addNode, List.append_assoc]
      rfl
    rw [h_node]
    rfl

/-! ### The files that are added -/

/-- The files among the paths, with their inodes. -/
def filesOf (nodes : List (List Str × Kind)) : List (List Str × ℤ) :=
  nodes.filterMap fun x =>
    match x.2 with
    | .dir => none
    | .file inode => some (x.1, inode)

theorem mem_filesOf {inode : ℤ} : (q, inode) ∈ filesOf nodes ↔ (q, Kind.file inode) ∈ nodes := by
  rw [filesOf, List.mem_filterMap]
  constructor
  · rintro ⟨⟨p, kind⟩, h_mem, h_some⟩
    cases kind with
    | dir => cases h_some
    | file i =>
      obtain ⟨rfl, rfl⟩ := Prod.mk.inj (Option.some.inj h_some)
      exact h_mem
  · intro h_mem
    exact ⟨_, h_mem, rfl⟩

/-- The paths and the `Ext2File`s, where each inode has the `InodeCache` of its number in the list. -/
def mounted (inodeCache : List ℤ) (files : List (List Str × ℤ)) : List (List Str × Ext2File) :=
  files.map fun x => (x.1, ⟨inodeCache.idxOf x.2⟩)

/-- The walk has come to these files: each inode of them has one `InodeCache`. -/
structure Visited (walked : Walked) (files : List (List Str × ℤ)) : Prop where
  adds : walked.adds = (mounted walked.inodeCache files).map fun x => (render x.1, x.2)
  cached : ∀ x ∈ files, x.2 ∈ walked.inodeCache
  nodup : walked.inodeCache.Nodup

/-- One more file. -/
theorem Visited.addFile {walked : Walked} {files : List (List Str × ℤ)} (h : Visited walked files)
    (q : List Str) (inode : ℤ) : Visited (addFile (render q) inode walked) (files ++ [(q, inode)]) := by
  by_cases h_mem : inode ∈ walked.inodeCache
  · -- there is an `InodeCache` already
    have h_add : Ext2.addFile (render q) inode walked
        = { walked with adds := walked.adds ++ [(render q, ⟨walked.inodeCache.idxOf inode⟩)] } := by
      rw [Ext2.addFile, icacheOf, if_pos h_mem]
    rw [h_add]
    refine ⟨?_, fun x hx => ?_, h.nodup⟩
    · rw [h.adds, mounted, mounted, List.map_append, List.map_append]
      rfl
    · obtain hx | hx := List.mem_append.mp hx
      · exact h.cached x hx
      · rw [List.mem_singleton.mp hx]
        exact h_mem
  · -- it is made, and the numbers of the others stay
    have h_add : Ext2.addFile (render q) inode walked
        = ⟨walked.inodeCache ++ [inode], walked.adds ++ [(render q, ⟨walked.inodeCache.length⟩)]⟩ := by
      rw [Ext2.addFile, icacheOf, if_neg h_mem]
    have h_new : (walked.inodeCache ++ [inode]).idxOf inode = walked.inodeCache.length := by
      rw [List.idxOf_append_of_notMem h_mem, List.idxOf_cons_self, Nat.add_zero]
    -- the new one is the last, so the index of every other file in the cache is what it was
    have h_old : mounted (walked.inodeCache ++ [inode]) files = mounted walked.inodeCache files := by
      refine List.map_congr_left fun x hx => ?_
      rw [List.idxOf_append_of_mem (h.cached x hx)]
    rw [h_add]
    refine ⟨?_, fun x hx => ?_, ?_⟩
    · have h_append : mounted (walked.inodeCache ++ [inode]) (files ++ [(q, inode)])
          = mounted walked.inodeCache files ++ [(q, ⟨walked.inodeCache.length⟩)] := by
        rw [← h_old, mounted, List.map_append, ← mounted, List.map_singleton, h_new]
      change walked.adds ++ _ = _
      rw [h_append, h.adds, List.map_append]
      rfl
    · obtain hx | hx := List.mem_append.mp hx
      · exact List.mem_append_left _ (h.cached x hx)
      · rw [List.mem_singleton.mp hx]
        exact List.mem_append_right _ List.mem_cons_self
    · exact List.nodup_append.mpr ⟨h.nodup, List.nodup_singleton _, fun a ha b hb => by
        rw [List.mem_singleton.mp hb]
        rintro rfl
        exact h_mem ha⟩

/-- All of them. -/
theorem Visited.run {walked : Walked} {files : List (List Str × ℤ)} (h : Visited walked files)
    (nodes : List (List Str × Kind)) :
    Visited (nodes.foldl (addNode []) walked) (files ++ filesOf nodes) := by
  induction nodes generalizing walked files with
  | nil =>
    rw [filesOf, List.filterMap_nil, List.append_nil]
    exact h
  | cons x nodes ih =>
    obtain ⟨p, kind⟩ := x
    cases kind with
    | dir => exact ih h
    | file inode =>
      have h_run := ih (h.addFile p inode)
      rw [List.append_assoc] at h_run
      exact h_run

/-! ### The container -/

/-- The calls of `fs_->add`. -/
def mount : Container Ext2File → List (Str × Ext2File) → Except Misuse (Container Ext2File)
  | c, [] => .ok c
  | c, (path, file) :: adds =>
    match c.add path (.file file) with
    | .error e => .error e
    | .ok c' => mount c' adds

theorem mount_render (c : Container Ext2File) (files : List (List Str × Ext2File)) :
    mount c (files.map fun x => (render x.1, x.2)) = c.addAll (files.map fun x => (x.1, .file x.2)) := by
  induction files generalizing c with
  | nil => rfl
  | cons x files ih =>
    rw [List.map_cons, List.map_cons, mount, Container.addAll]
    cases c.add (render x.1) (.file x.2) with
    | error e => rfl
    | ok c' => exact ih c'

/-- The container is the mounted tree: there are objects at the paths of the entries and nowhere else, the
directories are directories, and a file is an `Ext2File` with the one `InodeCache` of its inode. -/
structure Mounted (walked : Walked) (c : Container Ext2File) (nodes : List (List Str × Kind))
    (icache : ℤ → ℕ) : Prop where
  objects : ∀ s, c.get s ≠ none ↔ s = [slash] ∨ ∃ x ∈ nodes, s = render x.1
  directories : ∀ s, c.isDirectory s = true ↔ s = [slash] ∨ ∃ q, (q, Kind.dir) ∈ nodes ∧ s = render q
  files : ∀ q inode, (q, Kind.file inode) ∈ nodes →
    (∃ ptr a, c.get (render q) = some ptr ∧ c.deref ptr = some (.file a ⟨icache inode⟩))
      ∧ walked.inodeCache[icache inode]? = some inode

/-- `WalkDir` comes to its end from the root on, whose entries are in `block`, and the container that it
leaves is the mounted tree. -/
def MountsCompletely (reader : Ext2Reader) (block : ℕ) (nodes : List (List Str × Kind)) : Prop :=
  ∃ n walked c icache, (∀ k, n ≤ k → walkDir reader k [slash] block ⟨[], []⟩ = .ok walked)
    ∧ mount Container.empty walked.adds = .ok c ∧ Mounted walked c nodes icache

/-- None of the files is below another. -/
theorem Listed.prefixFree (h : Listed reader limit dirent nodes) (inodeCache : List ℤ) :
    PrefixFree (mounted inodeCache (filesOf nodes)) := by
  have h_ne : nodes.Pairwise fun x y => x.1 ≠ y.1 := List.pairwise_map.mp h.nodup
  rw [PrefixFree, mounted, List.pairwise_map, filesOf, List.pairwise_filterMap]
  refine List.Pairwise.imp_of_mem (fun {x y} hx hy h_ne => ?_) h_ne
  obtain ⟨p, kind⟩ := x
  obtain ⟨p', kind'⟩ := y
  intro b hb b' hb'
  cases kind with
  | dir => cases hb
  | file inode =>
    cases kind' with
    | dir => cases hb'
    | file inode' =>
      obtain rfl := Option.some.inj hb
      obtain rfl := Option.some.inj hb'
      exact ⟨fun h_pre => h_ne (h.eq_of_file hx hy h_pre), fun h_pre => h_ne (h.eq_of_file hy hx h_pre).symm⟩

variable {c : Container Ext2File} {inodeCache : List ℤ}

theorem mem_mounted {file : Ext2File} : (q, file) ∈ mounted inodeCache (filesOf nodes)
      ↔ ∃ inode, (q, Kind.file inode) ∈ nodes ∧ file = ⟨inodeCache.idxOf inode⟩ := by
  rw [mounted, List.mem_map]
  constructor
  · rintro ⟨⟨p, inode⟩, h_mem, h_eq⟩
    obtain ⟨rfl, rfl⟩ := Prod.mk.inj h_eq
    exact ⟨inode, mem_filesOf.mp h_mem, rfl⟩
  · rintro ⟨inode, h_mem, rfl⟩
    exact ⟨_, mem_filesOf.mpr h_mem, rfl⟩

/-- The ancestors of the files are the directories with a file below them. -/
theorem Listed.isAncestor_iff (h : Listed reader limit dirent nodes) :
    IsAncestor (mounted inodeCache (filesOf nodes)) q ↔ (q, Kind.dir) ∈ nodes
      ∧ ∃ p inode, (p, Kind.file inode) ∈ nodes ∧ q <+: p := by
  constructor
  · rintro ⟨hq, ⟨p, file⟩, h_mem, h_pre, h_ne⟩
    obtain ⟨inode, h_file, -⟩ := mem_mounted.mp h_mem
    exact ⟨h.above h_file hq h_pre h_ne, p, inode, h_file, h_pre⟩
  · rintro ⟨h_dir, p, inode, h_file, h_pre⟩
    refine ⟨(h.isPath _ h_dir).ne_nil, _, mem_mounted.mpr ⟨inode, h_file, rfl⟩, h_pre, ?_⟩
    rintro rfl
    have h_inj := List.inj_on_of_nodup_map h.nodup h_file h_dir rfl
    cases (Prod.mk.inj h_inj).2

/-- **What `WalkDir` leaves**, from the root on: it comes to its end, and the container has the files and
what is above them. -/
theorem exists_walk {block : ℕ}
    (h : Listed reader (readBlock reader block + reader.blockSize) (readBlock reader block) nodes) :
    ∃ n walked c, (∀ k, n ≤ k → walkDir reader k [slash] block ⟨[], []⟩ = .ok walked)
      ∧ mount Container.empty walked.adds = .ok c ∧ Visited walked (filesOf nodes)
      ∧ Represents c (mounted walked.inodeCache (filesOf nodes)) := by
  obtain ⟨n, hn⟩ := walkFrom_eq h []
  have h_visited : Visited (nodes.foldl (addNode []) ⟨[], []⟩) ([] ++ filesOf nodes) :=
    Visited.run ⟨rfl, fun x hx => absurd hx List.not_mem_nil, List.nodup_nil⟩ nodes
  rw [List.nil_append] at h_visited
  have h_paths : ∀ e ∈ mounted (nodes.foldl (addNode []) ⟨[], []⟩).inodeCache (filesOf nodes),
      IsPath e.1 := by
    rintro ⟨q, file⟩ h_mem
    obtain ⟨inode, h_file, -⟩ := mem_mounted.mp h_mem
    exact h.isPath _ h_file
  obtain ⟨c, h_add, h_represents⟩ := represents_addAll h_paths (h.prefixFree _)
  refine ⟨n, _, c, fun k hk => hn k hk _, ?_, h_visited, h_represents⟩
  rw [h_visited.adds, mount_render]
  exact h_add

/-- What a walk leaves is one thing. -/
theorem MountsCompletely.mounted {block : ℕ} (h : MountsCompletely reader block nodes)
    {n : ℕ} {walked : Walked} (h_walk : ∀ k, n ≤ k → walkDir reader k [slash] block ⟨[], []⟩ = .ok walked)
    (h_add : mount Container.empty walked.adds = .ok c) : ∃ icache, Mounted walked c nodes icache := by
  obtain ⟨n', walked', c', icache, h_walk', h_add', h_mounted⟩ := h
  have h_run := h_walk (n + n') (Nat.le_add_right n n')
  rw [h_walk' (n + n') (Nat.le_add_left n' n)] at h_run
  obtain rfl := Except.ok.inj h_run
  obtain rfl := Except.ok.inj (h_add.symm.trans h_add')
  exact ⟨icache, h_mounted⟩

/-- **The tree is mounted completely** just if each directory has a file below it. -/
theorem mountsCompletely_iff {block : ℕ}
    (h : Listed reader (readBlock reader block + reader.blockSize) (readBlock reader block) nodes) :
    MountsCompletely reader block nodes ↔ ∀ q, (q, Kind.dir) ∈ nodes →
      ∃ p inode, (p, Kind.file inode) ∈ nodes ∧ q <+: p := by
  obtain ⟨n, walked, c, h_walk, h_add, h_visited, h_represents⟩ := exists_walk h
  constructor
  · intro h_complete q h_dir
    obtain ⟨icache, h_mounted⟩ := h_complete.mounted h_walk h_add
    -- what is a directory of the container is above one of the files
    have h_is : c.isDirectory (render q) = true :=
      (h_mounted.directories _).mpr (.inr ⟨q, h_dir, rfl⟩)
    obtain h_root | ⟨q', h_eq, h_ancestor⟩ := (h_represents.directories _).mp h_is
    · exact absurd h_root (render_ne_slash (h.isPath _ h_dir))
    · obtain ⟨h_dir', h_below⟩ := h.isAncestor_iff.mp h_ancestor
      obtain rfl := render_inj (h.isPath _ h_dir).isName (h.isPath _ h_dir').isName h_eq
      exact h_below
  · intro h_files
    -- with a file below each, the directories are those above the files
    have h_ancestor : ∀ q, IsAncestor (mounted walked.inodeCache (filesOf nodes)) q
        ↔ (q, Kind.dir) ∈ nodes := fun q =>
      h.isAncestor_iff.trans (and_iff_left_of_imp (h_files q))
    refine ⟨n, walked, c, walked.inodeCache.idxOf, h_walk, h_add, ?_, fun s => ?_, fun q inode h_file => ?_⟩
    · intro s
      rw [h_represents.keys s]
      refine or_congr_right ⟨?_, ?_⟩
      · rintro ⟨q, rfl, ⟨⟨p, file⟩, h_mem, rfl⟩ | h_dir⟩
        · obtain ⟨inode, h_file, -⟩ := mem_mounted.mp h_mem
          exact ⟨_, h_file, rfl⟩
        · exact ⟨_, (h_ancestor q).mp h_dir, rfl⟩
      · rintro ⟨⟨q, kind⟩, h_mem, rfl⟩
        cases kind with
        | dir => exact ⟨q, rfl, .inr ((h_ancestor q).mpr h_mem)⟩
        | file inode => exact ⟨q, rfl, .inl ⟨_, mem_mounted.mpr ⟨inode, h_mem, rfl⟩, rfl⟩⟩
    · rw [h_represents.directories s]
      refine or_congr_right (exists_congr fun q => ?_)
      rw [h_ancestor q, and_comm]
    · constructor
      · exact h_represents.file _ (mem_mounted.mpr ⟨inode, h_file, rfl⟩)
      · have h_cached : inode ∈ walked.inodeCache := h_visited.cached _ (mem_filesOf.mpr h_file)
        rw [List.getElem?_eq_getElem (List.idxOf_lt_length_iff.mpr h_cached)]
        exact congrArg some (List.getElem_idxOf _)

/-! ### Small images -/

/-- A block that begins with these bytes. -/
def filled (s : Str) : Str :=
  (s ++ List.replicate 1024 0).take 1024

theorem length_filled (s : Str) : (filled s).length = 1024 := by
  rw [filled, List.length_take, List.length_append, List.length_replicate]
  exact Nat.min_eq_left (Nat.le_add_left _ _)

/-- The bytes at `c`, if they are among those that a block begins with. -/
def pageBytes (pages : List Str) (c n : ℕ) : Str :=
  ((pages[c / 1024]?.getD []).drop (c % 1024)).take n

/-- They are what is read there. -/
theorem bytes_filled {pages : List Str} {c n : ℕ} (h_pos : 0 < n) (h : (pageBytes pages c n).length = n)
    (h_short : c % 1024 + n ≤ 1024) :
    bytes (pages.flatMap filled) c n = .ok (pageBytes pages c n) := by
  rcases h_page : pages[c / 1024]? with _ | s
  · rw [pageBytes, h_page, Option.getD_none, List.drop_nil, List.take_nil, List.length_nil] at h
    omega
  rw [pageBytes, h_page, Option.getD_some] at h ⊢
  rw [List.length_take, List.length_drop] at h
  have h_len := Blocks.length_flatMap length_filled pages
  have h_lt : c / 1024 < pages.length := (List.getElem?_eq_some_iff.mp h_page).1
  have h_in : (c : ℤ) + n ≤ (pages.flatMap filled).length := by
    have h_div := Nat.div_add_mod c 1024
    rw [h_len]
    omega
  rw [bytes, if_pos ⟨Int.natCast_nonneg c, h_in⟩, Int.toNat_natCast]
  refine congrArg Except.ok (List.ext_getElem? fun i => ?_)
  by_cases hi : i < n
  · have h_div : (c + i) / 1024 = c / 1024 := by omega
    have h_mod : (c + i) % 1024 = c % 1024 + i := by omega
    rw [List.getElem?_take_of_lt hi, List.getElem?_take_of_lt hi, List.getElem?_drop, List.getElem?_drop,
      Blocks.getElem?_flatMap (by decide) length_filled, h_div, h_page, h_mod, Option.bind_some, filled,
      List.getElem?_take_of_lt (by omega), List.getElem?_append_left (by omega)]
  · rw [List.getElem?_take_eq_none (Nat.le_of_not_lt hi), List.getElem?_take_eq_none (Nat.le_of_not_lt hi)]

/-- A number among these bytes. -/
def PageNumber (pages : List Str) (c n v : ℕ) : Prop :=
  0 < n ∧ (pageBytes pages c n).length = n ∧ c % 1024 + n ≤ 1024 ∧ littleEndian (pageBytes pages c n) = v

instance (pages : List Str) (c n v : ℕ) : Decidable (PageNumber pages c n v) :=
  inferInstanceAs (Decidable (_ ∧ _))

theorem PageNumber.read {pages : List Str} {c n v : ℕ} (h : PageNumber pages c n v) :
    (do return littleEndian (← bytes (pages.flatMap filled) c n)) = Except.ok (ε := Fault) v := by
  obtain ⟨h_pos, h_len, h_short, rfl⟩ := h
  rw [bytes_filled h_pos h_len h_short]
  rfl

/-- A directory entry among these bytes. -/
def PageRecord (pages : List Str) (limit dirent rec_len : ℕ) (name : Str) (number : ℕ) : Prop :=
  PageNumber pages dirent 4 number ∧ number ≠ 0 ∧ PageNumber pages (dirent + 4) 2 rec_len
    ∧ 8 + name.length ≤ rec_len ∧ 4 ∣ rec_len ∧ dirent + rec_len ≤ limit
    ∧ PageNumber pages (dirent + 6) 1 name.length
    ∧ 0 < name.length ∧ (dirent + 8) % 1024 + name.length ≤ 1024
    ∧ pageBytes pages (dirent + 8) name.length = name

instance (pages : List Str) (limit dirent rec_len : ℕ) (name : Str) (number : ℕ) :
    Decidable (PageRecord pages limit dirent rec_len name number) :=
  inferInstanceAs (Decidable (_ ∧ _))

theorem PageRecord.record {pages : List Str} {limit dirent rec_len : ℕ} {name : Str} {number : ℕ}
    (h : PageRecord pages limit dirent rec_len name number) :
    Record (pages.flatMap filled) limit dirent (dirent + rec_len : ℕ) name number := by
  obtain ⟨h_number, h_used, h_length, h_le, h_dvd, h_limit, h_nameLength, h_pos, h_short, h_name⟩ := h
  refine ⟨h_number.read, h_used, ⟨rec_len, h_length.read, h_le, h_dvd, Nat.cast_add _ _, ?_⟩,
    h_nameLength.read, ?_⟩
  · exact Int.ofNat_le.mpr h_limit
  · have h_bytes := bytes_filled h_pos (congrArg List.length h_name) h_short
    rwa [h_name] at h_bytes

/-- An image in blocks of 1024 bytes, with 16 inodes in a group. -/
def pagesReader (pages : List Str) : Ext2Reader :=
  ⟨pages.flatMap filled, 1024, 16, 128, 2048⟩

/-- Where an inode of the first group is, if the table is in block 3. -/
theorem inodeOf_pages {pages : List Str} (h_table : PageNumber pages 2056 4 3) {n : ℕ} (h_pos : 1 ≤ n)
    (h_le : n ≤ 16) : inodeOf (pagesReader pages) n = .ok ((3072 + (n - 1) * 128 : ℕ) : ℤ) := by
  have h_int : int (toInt n - 1) = .ok ((n - 1 : ℕ) : ℤ) := by
    rw [toInt_of_lt (by omega), int, if_pos (by unfold Fits; omega), Nat.cast_sub h_pos, Nat.cast_one]
  have h_index : (((n - 1 : ℕ) : ℤ) % 0x10000000000000000).toNat = n - 1 := by omega
  have h_inodeTable : inodeTable (pagesReader pages) 0 = .ok 3 := by
    have h_offset : int (toInt (0 : ℕ) * 32) = .ok 0 := by decide
    rw [inodeTable, h_offset, ok_bind]
    exact h_table.read
  have h_group : (n - 1) / (pagesReader pages).inodesPerGroup = 0 :=
    Nat.div_eq_of_lt (show n - 1 < 16 by omega)
  have h_mod : (n - 1) % (pagesReader pages).inodesPerGroup = n - 1 :=
    Nat.mod_eq_of_lt (show n - 1 < 16 by omega)
  have h_block : readBlock (pagesReader pages) ((3 : ℕ) + ((n - 1) * 128 / 1024 : ℕ))
      = ((3 + (n - 1) * 128 / 1024) * 1024 : ℕ) := by
    have h_size : (pagesReader pages).blockSize = 1024 := rfl
    rw [readBlock, ← Nat.cast_add, toInt_of_lt (by omega), h_size, Nat.cast_mul]
  rw [inodeOf, h_int, ok_bind, h_index]
  dsimp only
  rw [if_neg (by rintro (h | h) <;> cases h), h_group, h_inodeTable, ok_bind, h_mod]
  refine congrArg Except.ok ?_
  have h_sum : readBlock (pagesReader pages) ((3 : ℕ) + ((n - 1) * 128 / 1024 : ℕ)) + ((n - 1) * 128 % 1024 : ℕ)
      = ((3072 + (n - 1) * 128 : ℕ) : ℤ) := by
    have h_div : (3 + (n - 1) * 128 / 1024) * 1024 + (n - 1) * 128 % 1024 = 3072 + (n - 1) * 128 := by omega
    rw [h_block, ← Nat.cast_add, h_div]
  exact h_sum

/-- An inode with a mode, a size and a first block. -/
def inodeBytes (mode : Str) (size first : UInt8) : Str :=
  mode ++ [0, 0, size, 0, 0, 0] ++ List.replicate 32 0 ++ [first, 0, 0, 0] ++ List.replicate 84 0

/-- The modes of a directory, a file, and a file that can be executed. -/
def directoryMode : Str := [0xed, 0x41]

def fileMode : Str := [0xa4, 0x81]

def runMode : Str := [0xed, 0x81]

/-- The blocks before the inodes: the superblock is in block 1, the group descriptor in block 2. -/
def superPages : List Str :=
  [[],
    List.replicate 40 0 ++ [16, 0, 0, 0] ++ List.replicate 12 0 ++ [0x53, 0xef]
      ++ List.replicate 30 0 ++ [128, 0] ++ List.replicate 6 0 ++ [2, 0, 0, 0],
    [0, 0, 0, 0, 0, 0, 0, 0, 3, 0, 0, 0]]

/-- A root with a file and a directory, in which a file has two names: the inodes are in the blocks 3 and 4,
the directories in the blocks 5 and 6, and the data in the blocks 7 and 8. -/
def nestedImage : List Str :=
  superPages ++
    [List.replicate 128 0 ++ inodeBytes directoryMode 0 5,
      List.replicate 256 0 ++ inodeBytes fileMode 5 7 ++ inodeBytes directoryMode 0 6 ++ inodeBytes runMode 2 8,
      [2, 0, 0, 0, 12, 0, 1, 2] ++ str "." ++ [0, 0, 0, 2, 0, 0, 0, 12, 0, 2, 2] ++ str ".."
        ++ [0, 0, 11, 0, 0, 0, 16, 0, 6, 1] ++ str "README" ++ [0, 0, 12, 0, 0, 0, 0xd8, 0x03, 3, 2] ++ str "bin",
      [12, 0, 0, 0, 12, 0, 1, 2] ++ str "." ++ [0, 0, 0, 2, 0, 0, 0, 12, 0, 2, 2] ++ str ".."
        ++ [0, 0, 13, 0, 0, 0, 12, 0, 3, 1] ++ str "run" ++ [0, 13, 0, 0, 0, 0xdc, 0x03, 1, 1] ++ str "r",
      str "hello",
      str "#!"]

/-- What is in it. -/
def nestedNodes : List (List Str × Kind) :=
  [([str "README"], .file 4352), ([str "bin"], .dir), ([str "bin", str "run"], .file 4608),
    ([str "bin", str "r"], .file 4608)]

theorem listed_nested : Listed (pagesReader nestedImage) 6144 5120 nestedNodes := by
  have h_table : PageNumber nestedImage 2056 4 3 := by decide +kernel
  have h_readme : inodeOf (pagesReader nestedImage) 11 = .ok 4352 :=
    inodeOf_pages h_table (by decide) (by decide)
  have h_bin : inodeOf (pagesReader nestedImage) 12 = .ok 4480 := inodeOf_pages h_table (by decide) (by decide)
  have h_run : inodeOf (pagesReader nestedImage) 13 = .ok 4608 := inodeOf_pages h_table (by decide) (by decide)
  have h_readme_mode : PageNumber nestedImage 4352 2 0x81a4 := by decide +kernel
  have h_bin_mode : PageNumber nestedImage 4480 2 0x41ed := by decide +kernel
  have h_bin_block : PageNumber nestedImage 4520 4 6 := by decide +kernel
  have h_run_mode : PageNumber nestedImage 4608 2 0x81ed := by decide +kernel
  have h_record_readme : PageRecord nestedImage 6144 5144 16 (str "README") 11 := by decide +kernel
  have h_record_bin : PageRecord nestedImage 6144 5160 984 (str "bin") 12 := by decide +kernel
  have h_record_run : PageRecord nestedImage 7168 6168 12 (str "run") 13 := by decide +kernel
  have h_record_r : PageRecord nestedImage 7168 6180 988 (str "r") 13 := by decide +kernel
  have h_dot : PageRecord nestedImage 6144 5120 12 (str ".") 2 := by decide +kernel
  have h_dotdot : PageRecord nestedImage 6144 5132 12 (str "..") 2 := by decide +kernel
  have h_bin_dot : PageRecord nestedImage 7168 6144 12 (str ".") 12 := by decide +kernel
  have h_bin_dotdot : PageRecord nestedImage 7168 6156 12 (str "..") 2 := by decide +kernel
  -- the subdirectory, and then the root
  have h_names : Listed (pagesReader nestedImage) 7168 6168
      [([str "run"], .file 4608), ([str "r"], .file 4608)] :=
    .file h_record_run.record (by decide) (by decide) h_run h_run_mode.read (by decide)
      (.file h_record_r.record (by decide) (by decide) h_run h_run_mode.read (by decide) .done (by decide))
      (by decide)
  have h_below : Listed (pagesReader nestedImage) 7168 6144
      [([str "run"], .file 4608), ([str "r"], .file 4608)] :=
    .dots h_bin_dot.record (.inl rfl) (.dots h_bin_dotdot.record (.inr rfl) h_names)
  have h_rest : Listed (pagesReader nestedImage) 6144 5160 nestedNodes.tail :=
    .dir h_record_bin.record (by decide) (by decide) h_bin h_bin_mode.read (by decide) h_bin_block.read h_below
      .done (by decide)
  exact .dots h_dot.record (.inl rfl) (.dots h_dotdot.record (.inr rfl)
    (.file h_record_readme.record (by decide) (by decide) h_readme h_readme_mode.read (by decide) h_rest
      (by decide)))

/-- The image is mounted, as there is a file in its directory. -/
theorem mountsCompletely_nested : MountsCompletely (pagesReader nestedImage) 5 nestedNodes := by
  have h_root : readBlock (pagesReader nestedImage) (5 : ℕ) = 5120 := rfl
  refine (mountsCompletely_iff (by rw [h_root]; exact listed_nested)).mpr fun q h_dir => ?_
  have h_dirs : ∀ x ∈ nestedNodes, x.2 = .dir → x.1 = [str "bin"] := by decide
  have h_q : q = [str "bin"] := h_dirs _ h_dir rfl
  exact ⟨[str "bin", str "run"], 4608, by decide, by rw [h_q]; decide⟩

/-! ### An empty directory -/

/-- A root with an empty directory. -/
def emptyDirectory : List Str :=
  superPages ++
    [List.replicate 128 0 ++ inodeBytes directoryMode 0 5,
      List.replicate 256 0 ++ inodeBytes directoryMode 0 6,
      [2, 0, 0, 0, 12, 0, 1, 2] ++ str "." ++ [0, 0, 0, 2, 0, 0, 0, 12, 0, 2, 2] ++ str ".."
        ++ [0, 0, 11, 0, 0, 0, 0xe8, 0x03, 1, 2] ++ str "d",
      [11, 0, 0, 0, 12, 0, 1, 2] ++ str "." ++ [0, 0, 0, 2, 0, 0, 0, 0xf4, 0x03, 2, 2] ++ str ".."]

/-- The image is well-formed. -/
theorem listed_emptyDirectory : Listed (pagesReader emptyDirectory) 6144 5120 [([str "d"], .dir)] := by
  have h_table : PageNumber emptyDirectory 2056 4 3 := by decide +kernel
  have h_inode : inodeOf (pagesReader emptyDirectory) 11 = .ok 4352 :=
    inodeOf_pages h_table (by decide) (by decide)
  have h_mode : PageNumber emptyDirectory 4352 2 0x41ed := by decide +kernel
  have h_block : PageNumber emptyDirectory 4392 4 6 := by decide +kernel
  have h_record : PageRecord emptyDirectory 6144 5144 1000 (str "d") 11 := by decide +kernel
  have h_dot : PageRecord emptyDirectory 6144 5120 12 (str ".") 2 := by decide +kernel
  have h_dotdot : PageRecord emptyDirectory 6144 5132 12 (str "..") 2 := by decide +kernel
  have h_below_dot : PageRecord emptyDirectory 7168 6144 12 (str ".") 11 := by decide +kernel
  have h_below_dotdot : PageRecord emptyDirectory 7168 6156 1012 (str "..") 2 := by decide +kernel
  have h_below : Listed (pagesReader emptyDirectory) 7168 6144 [] :=
    .dots h_below_dot.record (.inl rfl) (.dots h_below_dotdot.record (.inr rfl) .done)
  exact .dots h_dot.record (.inl rfl) (.dots h_dotdot.record (.inr rfl)
    (.dir h_record.record (by decide) (by decide) h_inode h_mode.read (by decide) h_block.read h_below .done
      fun x hx => absurd hx List.not_mem_nil))

/-- But nothing of it is mounted. -/
theorem not_mountsCompletely_empty : Listed (pagesReader emptyDirectory) 6144 5120 [([str "d"], .dir)]
    ∧ ¬ MountsCompletely (pagesReader emptyDirectory) 5 [([str "d"], .dir)] := by
  refine ⟨listed_emptyDirectory, fun h => ?_⟩
  have h_root : readBlock (pagesReader emptyDirectory) (5 : ℕ) = 5120 := rfl
  obtain ⟨n, walked, c, h_walk, h_add, -, h_represents⟩ :=
    exists_walk (by rw [h_root]; exact listed_emptyDirectory)
  obtain ⟨icache, h_mounted⟩ := h.mounted h_walk h_add
  have h_there : c.get (render [str "d"]) ≠ none :=
    (h_mounted.objects _).mpr (.inr ⟨_, List.mem_cons_self, rfl⟩)
  obtain h_root | ⟨q, -, ⟨e, h_mem, -⟩ | ⟨-, e, h_mem, -⟩⟩ := (h_represents.keys _).mp h_there
  · exact absurd h_root (by decide)
  · cases h_mem
  · cases h_mem

end GitlstreeFS.Ext2
