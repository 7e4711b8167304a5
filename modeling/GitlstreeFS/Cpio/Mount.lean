import GitlstreeFS.Container.Mount
import GitlstreeFS.Cpio.Order
import GitlstreeFS.MemoryFiles

/-!
# The mounted archive

From the bytes of an archive to a client of the mount: `LoadDirectory` walks the headers and adds the files,
the callbacks of `cpiofs.cc` look them up, and `CpioFile` reads their contents from the mapped archive
(`mounted_archive`).

A file of the container is the header that it is made from. It keeps a pointer `t_` from call to call, and
what it shows is said for any number of calls before.
-/

namespace GitlstreeFS.Cpio

open Client (Looked)
open DirectoryContainer

variable {m : Str} {c d : ℤ} {e : Entry} {es : List Entry} {cs : List ℤ}
  {target : HardlinkKey → Except FileFault ℤ}

/-! ### The map of one device -/

/-- Where the triples are ordered, the map finds what it was given last. -/
theorem hardlinkTarget_eq (h_ordered : Ordered (es.map Entry.key)) (he : e ∈ es) :
    hardlinkTarget (linksOf cs es) e.key = finiteTarget (linksOf cs es) e.key := by
  have h_sub : ∀ k ∈ e.key :: (linksOf cs es).map Prod.fst, k ∈ es.map Entry.key := by
    intro k hk
    obtain rfl | hk := List.mem_cons.mp hk
    · exact List.mem_map_of_mem he
    · obtain ⟨l, hl, rfl⟩ := List.mem_map.mp hk
      obtain ⟨p, hp, rfl⟩ := List.mem_map.mp hl
      exact List.mem_map_of_mem (List.of_mem_zip (List.mem_filter.mp hp).1).2
  have h_keys : Ordered (e.key :: (linksOf cs es).map Prod.fst) :=
    fun a ha b hb => h_ordered a (h_sub a ha) b (h_sub b hb)
  rw [hardlinkTarget, if_pos h_keys]
  rfl

/-! ### A file of the mount -/

/-- What the methods of a file say, whatever they were asked before: `Getattr`, of a `stat` that is zero
before, and what a client reads. -/
structure ShowsFile (m : Str) (target : HardlinkKey → Except FileFault ℤ) (f : CpioFile)
    (st : Stat) (data : Str) :
    Prop where
  getattr : ∀ n, ∃ g g', f.after m target n = .ok g ∧ g.getattr m target = .ok ((st.mode, st.size), g')
  nlink : st.nlink = 0
  reads : ∀ n, ∃ g, f.after m target n = .ok g ∧
    Buffer.ReadsAs MemoryFile.reader (.cpio m target g) data 0x100000000 0x8000000000000000

/-- The file with a header that leads to the data. -/
theorem showsFile_of_resolved (h : Stands m c e) {data : Str} (h_resolved : resolved m target c = .ok d)
    (h_contents : contents m d = .ok data) :
    ∃ f, CpioFile.make m c = .ok f ∧ ShowsFile m target f ⟨e.mode, 0, data.length⟩ data := by
  rw [resolved, make_eq h, ok_bind] at h_resolved
  obtain ⟨⟨d', f'⟩, h_resolve, h_d⟩ := bind_eq_ok_iff.mp h_resolved
  obtain rfl : d' = d := Except.ok.inj h_d
  obtain ⟨a, -, -, h_size, h_lt⟩ := of_contents h_contents
  have h_mode : e.mode < 0x100000000 := h.lt (by simp [Entry.numbers])
  refine ⟨_, make_eq h, fun n => ?_, rfl, fun n => ?_⟩
  · obtain ⟨g, g', h_after, h_c, h_again⟩ := CpioFile.exists_after h_resolve n
    refine ⟨g, g', h_after, ?_⟩
    rw [CpioFile.getattr, h_c, mode_eq h, lift, ok_bind, h_again, ok_bind]
    dsimp only
    rw [h_size, lift, ok_bind, bits_toInt h_mode]
    rfl
  · obtain ⟨g, g', h_after, -, h_again⟩ := CpioFile.exists_after h_resolve n
    exact ⟨g, h_after, (MemoryFile.serves data).readsAs (by omega) ⟨d', g', h_again, h_contents⟩⟩

/-! ### From the archive to the client -/

/-- The entries that are added, with their paths. -/
def filesOf (path : Entry → List Str) (es : List Entry) : List (List Str × Entry) :=
  (es.filter Entry.isAdded).map fun e => (path e, e)

/-- The headers that are added, with their paths. -/
def headersOf (path : Entry → List Str) (cs : List ℤ) (es : List Entry) : List (List Str × ℤ) :=
  ((cs.zip es).filter fun p => p.2.isAdded).map fun p => (path p.2, p.1)

/-- What a client finds at a path: an entry with the size of its data, or a directory. -/
inductive Found (path : Entry → List Str) (es : List Entry) : List Str → Stat → Prop
  | root : Found path es [] directoryStat
  | entry {e : Entry} (h : e ∈ es) (h_added : e.isAdded = true) :
    Found path es (path e) ⟨e.mode, 0, (groupData es e).length⟩
  | above {q : List Str} (h : IsAncestor (filesOf path es) q) : Found path es q directoryStat

theorem map_fst_headersOf {path : Entry → List Str} (h : cs.length = es.length) :
    (headersOf path cs es).map Prod.fst = (filesOf path es).map Prod.fst := by
  have h_es : (cs.zip es).map Prod.snd = es := List.map_snd_zip (Nat.le_of_eq h.symm)
  conv_rhs => rw [filesOf, ← h_es, List.filter_map, List.map_map, List.map_map]
  rw [headersOf, List.map_map]
  rfl

/-- Each entry has a header, and each header that is added an entry. -/
theorem mem_headersOf {path : Entry → List Str} {q : List Str} : (q, c) ∈ headersOf path cs es ↔
    ∃ e, (c, e) ∈ cs.zip es ∧ e.isAdded = true ∧ q = path e := by
  rw [headersOf, List.mem_map]
  constructor
  · rintro ⟨p, hp, h_eq⟩
    obtain ⟨rfl, rfl⟩ := Prod.mk.inj h_eq
    exact ⟨p.2, (List.mem_filter.mp hp).1, (List.mem_filter.mp hp).2, rfl⟩
  · rintro ⟨e, he, h_added, rfl⟩
    exact ⟨_, List.mem_filter.mpr ⟨he, h_added⟩, rfl⟩

/-- The names of the archive are the paths without the first slash. -/
theorem addsOf_eq {path : Entry → List Str}
    (h_path : ∀ e ∈ es, e.isAdded = true → slash :: e.name = render (path e)) :
    addsOf cs es = (headersOf path cs es).map fun x => (render x.1, x.2) := by
  rw [addsOf, headersOf, List.map_map]
  refine List.map_congr_left fun p hp => ?_
  obtain ⟨hp, h_added⟩ := List.mem_filter.mp hp
  rw [h_path p.2 (List.of_mem_zip hp).2 h_added]
  rfl

/-- What a client is told of the file with a header. (A `Getattr` that fails does not come back.) -/
def headerStat (m : Str) (target : HardlinkKey → Except FileFault ℤ) (header : ℤ) : Stat :=
  match (do let f ← CpioFile.make m header; f.getattr m target) with
  | .ok ((st_mode, st_size), _) => ⟨st_mode, 0, st_size⟩
  | .error _ => ⟨0, 0, 0⟩

theorem ShowsFile.headerStat_eq {f : CpioFile} {st : Stat} {data : Str} (h : ShowsFile m target f st data)
    (h_f : CpioFile.make m c = .ok f) : headerStat m target c = st := by
  obtain ⟨g, g', h_after, h_getattr⟩ := h.getattr 0
  obtain rfl := Except.ok.inj h_after
  rw [headerStat, h_f, ok_bind, h_getattr]
  dsimp only
  rw [← h.nlink]

/-- The mount of the entries, each at its path. -/
structure Mounted (m : Str) (target : HardlinkKey → Except FileFault ℤ) (path : Entry → List Str)
    (es : List Entry) (c : Container ℤ) : Prop where
  find : ∀ depth q st, (q, st) ∈ clientFind (headerStat m target) Container.fsOpendir c depth ↔
    q.length ≤ depth ∧ Found path es q st
  once : ∀ depth, ((clientFind (headerStat m target) Container.fsOpendir c depth).map Prod.fst).Nodup
  /-- An entry can be opened, and what is opened has the data of its file. -/
  opens : ∀ e ∈ es, e.isAdded = true → ∃ ptr a header f, c.fsOpen (render (path e)) = .ok (.ok ptr) ∧
    c.deref ptr = some (.file a header) ∧ CpioFile.make m header = .ok f ∧
    ShowsFile m target f ⟨e.mode, 0, (groupData es e).length⟩ (groupData es e)

/-- What the container of the headers shows, if each header shows its entry. -/
theorem mounted_of_shows {path : Entry → List Str} {container : Container ℤ} (h_length : cs.length = es.length)
    (h_path : ∀ e ∈ es, e.isAdded = true → path e ≠ [] ∧ ∀ k ∈ path e, Looked k)
    (h : Represents container (headersOf path cs es))
    (h_shows : ∀ p ∈ cs.zip es, p.2.isAdded = true → ∃ f, CpioFile.make m p.1 = .ok f ∧
      ShowsFile m target f ⟨p.2.mode, 0, (groupData es p.2).length⟩ (groupData es p.2)) :
    Mounted m target path es container := by
  have h_isPath {e : Entry} (he : e ∈ es) (h_added : e.isAdded = true) : IsPath (path e) :=
    ⟨(h_path e he h_added).1, fun k hk => ((h_path e he h_added).2 k hk).1⟩
  have h_paths : ∀ x ∈ headersOf path cs es, IsPath x.1 := by
    rintro ⟨q, c⟩ hx
    obtain ⟨e, he, h_added, rfl⟩ := mem_headersOf.mp hx
    exact h_isPath (List.of_mem_zip he).2 h_added
  have h_header {e : Entry} (he : e ∈ es) : ∃ c, (c, e) ∈ cs.zip es := by
    have h_es : (cs.zip es).map Prod.snd = es := List.map_snd_zip (Nat.le_of_eq h_length.symm)
    rw [← h_es] at he
    obtain ⟨p, hp, rfl⟩ := List.mem_map.mp he
    exact ⟨p.1, hp⟩
  have h_ancestor {q : List Str} : IsAncestor (headersOf path cs es) q ↔ IsAncestor (filesOf path es) q :=
    isAncestor_congr (map_fst_headersOf h_length)
  have h_serves := h.serves h_paths
  refine ⟨fun depth q st => ?_, fun depth => h_serves.nodup_find .plain depth, fun e he h_added => ?_⟩
  · rw [h_serves.mem_find_iff .plain, and_congr_right_iff]
    intro _
    constructor
    · rintro ⟨-, ⟨rfl, rfl⟩ | ⟨x, ⟨c, h_mem, rfl⟩ | ⟨h_dir, rfl⟩, rfl⟩⟩
      · exact .root
      · obtain ⟨e, he, h_added, rfl⟩ := mem_headersOf.mp h_mem
        obtain ⟨f, h_f, h_file⟩ := h_shows _ he h_added
        rw [NewFile.getattr, h_file.headerStat_eq h_f]
        exact .entry (List.of_mem_zip he).2 h_added
      · exact .above (h_ancestor.mp h_dir)
    · intro h_found
      cases h_found with
      | root => exact ⟨fun n hn => absurd hn List.not_mem_nil, .inl ⟨rfl, rfl⟩⟩
      | @entry e he h_added =>
        obtain ⟨c, hc⟩ := h_header he
        obtain ⟨f, h_f, h_file⟩ := h_shows _ hc h_added
        refine ⟨(h_path e he h_added).2,
          .inr ⟨.file c, .inl ⟨c, mem_headersOf.mpr ⟨e, hc, h_added, rfl⟩, rfl⟩, ?_⟩⟩
        exact (h_file.headerStat_eq h_f).symm
      | above h_dir =>
        -- the names of a directory are those of a file below it
        obtain ⟨-, x, hx, h_pre, -⟩ := id h_dir
        obtain ⟨e, he, rfl⟩ := List.mem_map.mp hx
        obtain ⟨he, h_added⟩ := List.mem_filter.mp he
        exact ⟨fun n hn => (h_path e he h_added).2 n (h_pre.subset hn),
          .inr ⟨.dir, .inr ⟨h_ancestor.mpr h_dir, rfl⟩, rfl⟩⟩
  · obtain ⟨c, hc⟩ := h_header he
    obtain ⟨ptr, a, h_open, h_deref⟩ := h.fsOpen (mem_headersOf.mpr ⟨e, hc, h_added, rfl⟩) (h_isPath he h_added)
    obtain ⟨f, h_f, h_file⟩ := h_shows _ hc h_added
    exact ⟨ptr, a, c, f, h_open, h_deref, h_f, h_file⟩

/-- **An archive is mounted.** Of an archive whose triples are ordered, in which each file that is added has
its data in one of its names, a client that walks the mount finds each regular file and symlink at its path
with its mode and the size of its data, the directories above these, each once, and nothing else; and what it
reads from a file that it has opened are the data, whatever the sizes of its buffers are and whatever was asked
before. -/
theorem mounted_archive (es : List Entry) (h_ne : ∀ e ∈ es, e.name ≠ str "TRAILER!!!")
    (h_sized : ∀ e ∈ es, e.Sized) (texts : List Str) (h_texts : List.Forall₂ Newc es texts) (trailer : Entry)
    (h_name : trailer.name = str "TRAILER!!!") (t : Str) (h_t : Newc trailer t) (rest : Str) (n : ℕ)
    (hn : es.length < n) (path : Entry → List Str)
    (h_path : ∀ e ∈ es, e.isAdded = true → slash :: e.name = render (path e) ∧ ∀ k ∈ path e, Looked k)
    (h_free : PrefixFree (filesOf path es)) (h_one : OneCarries es) (h_ordered : Ordered (es.map Entry.key))
    (h_resolvable : ∀ e ∈ es, e.isAdded = true → 1 ≤ e.nlink ∧ Resolvable es e) :
    ∃ loaded c, loadDirectory (texts.flatten ++ t ++ rest) n = .ok (true, loaded) ∧
      Container.empty.addFiles loaded.adds = .ok c ∧
      Mounted (texts.flatten ++ t ++ rest) (hardlinkTarget loaded.hardlinks) path es c := by
  obtain ⟨cs, h_load, h_stands⟩ := loadDirectory_stands h_ne h_sized h_texts h_name h_t rest hn
  have h_zip := List.forall₂_iff_zip.mp h_stands
  have h_path_ne {e : Entry} (he : e ∈ es) (h_added : e.isAdded = true) : path e ≠ [] := by
    intro h_nil
    have h_render := (h_path e he h_added).1
    rw [h_nil] at h_render
    exact absurd h_render (List.cons_ne_nil _ _)
  have h_paths : ∀ x ∈ headersOf path cs es, IsPath x.1 := by
    rintro ⟨q, c⟩ hx
    obtain ⟨e, he, h_added, rfl⟩ := mem_headersOf.mp hx
    have he := (List.of_mem_zip he).2
    exact ⟨h_path_ne he h_added, fun k hk => ((h_path e he h_added).2 k hk).1⟩
  have h_free' : PrefixFree (headersOf path cs es) := by
    have h_eq : (headersOf path cs es).map Prod.fst = _ := map_fst_headersOf h_zip.1
    rw [PrefixFree, ← List.pairwise_map (f := Prod.fst) (R := fun p p' => ¬ p <+: p' ∧ ¬ p' <+: p)] at h_free ⊢
    rwa [h_eq]
  obtain ⟨c, h_add, h_represents⟩ := represents_addAll h_paths h_free'
  refine ⟨⟨cs, addsOf cs es, linksOf cs es⟩, c, h_load, ?_, ?_⟩
  · rw [addsOf_eq fun e he h_added => (h_path e he h_added).1, Container.addFiles_render]
    exact h_add
  · refine mounted_of_shows h_zip.1 (fun e he h_added => ⟨h_path_ne he h_added, (h_path e he h_added).2⟩)
      h_represents
      fun p hp h_added => ?_
    have he := (List.of_mem_zip hp).2
    have h_p := h_zip.2 hp
    obtain ⟨h_nlink, h_resolves⟩ := h_resolvable p.2 he h_added
    obtain ⟨d, h_d, h_contents⟩ :=
      (resolved_iff h_stands h_sized h_one h_p he h_nlink).mpr h_resolves
    -- the map finds the same under the triple of the entry
    rw [resolved_eq h_p (h_sized _ he), ← hardlinkTarget_eq h_ordered he,
      ← resolved_eq h_p (h_sized _ he)] at h_d
    exact showsFile_of_resolved h_p h_d h_contents

/-- A directory, a file in it, and another name of this file. -/
def linkedEntries : List Entry :=
  twoEntries ++ [⟨str "b", [], 2, 0x81a4, 0, 0, 2, 0, 8, 1, 0, 0, 0⟩]

/-- Their paths. -/
def linkedPath (e : Entry) : List Str :=
  if e.name = str "b" then [str "b"] else [str "dir", str "a"]

theorem mounted_archive_linked :
    ∃ loaded c, loadDirectory ((linkedEntries.map Entry.encode).flatten ++ lastEntry.encode ++ []) 4
        = .ok (true, loaded) ∧
      Container.empty.addFiles loaded.adds = .ok c ∧
      Mounted ((linkedEntries.map Entry.encode).flatten ++ lastEntry.encode ++ [])
        (hardlinkTarget loaded.hardlinks) linkedPath linkedEntries c :=
  mounted_archive linkedEntries (by decide) (by decide) (linkedEntries.map Entry.encode)
    (.cons (newc_encode (by decide)) (.cons (newc_encode (by decide)) (.cons (newc_encode (by decide)) .nil)))
    lastEntry rfl lastEntry.encode (newc_encode (by decide)) [] 4 (by decide) linkedPath (by decide) (by decide)
    (by decide) (by decide)
    (by
      intro e he h_added
      obtain rfl | rfl | rfl : e = _ ∨ e = _ ∨ e = _ := by simpa [linkedEntries, twoEntries] using he
      · cases h_added
      · exact ⟨by decide, by decide, .inr (.inl (by decide))⟩
      · exact ⟨by decide, by decide, .inr (.inr ⟨_, rfl, by decide⟩)⟩)

end GitlstreeFS.Cpio
