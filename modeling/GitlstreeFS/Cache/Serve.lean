import GitlstreeFS.Cache.Model

/-!
# What `get` serves

A `get` that finds neither a mapping nor a file, and whose `fetch` succeeds, maps what was fetched,
unless that is empty: `mmap` fails for a length of 0 and `get` returns a null pointer
(`ends_get_fetched`). A mapping stays as it is in all calls of `get` that follow (`Later.keeps`), with
whatever faults, and is what a later `get` of its name returns.

`served_iff` puts this together, with what it means for `gitlstree.cc`, where a null pointer ends the
process.
-/

namespace GitlstreeFS.Cache

open Effect
open Posix (Errno)

variable {ι κ : Type} [DecidableEq κ] {resolve : Str → κ} {cacheDir : Str} {s s' : World ι κ}
  {name : Str} {i : ι} {e : Errno}

/-! ### A mapping stays -/

section Kept

/-- The element `x` of `name` is there and shows `content`. -/
structure Shows (s : World ι κ) (name : Str) (x : Entry) (content : Str) : Prop where
  find : s.find name = some x
  deref : s.mapped.find? (·.2.address = x.address) = some (name, x)
  inode : x.memory.inode < s.inodes
  size : x.memory.size = content.length
  content : s.content x.memory.inode = content

omit [DecidableEq κ] in
theorem Shows.extends {x : Entry} {content : Str} (h : Shows s name x content)
    (h_mapped : s.mapped <+: s'.mapped) (h_inodes : s.inodes ≤ s'.inodes)
    (h_content : s'.content x.memory.inode = s.content x.memory.inode) :
    Shows s' name x content := by
  obtain ⟨l, h_l⟩ := h_mapped
  obtain ⟨m, h_m, h_x⟩ := Option.map_eq_some_iff.mp h.find
  refine ⟨?_, ?_, Nat.lt_of_lt_of_le h.inode h_inodes, h.size, h_content.trans h.content⟩
  · rw [World.find, ← h_l, List.find?_append, h_m, Option.some_or, Option.map_some, h_x]
  · rw [← h_l, List.find?_append, h.deref, Option.some_or]

/-- A call may write to any inode but `n`, if one is given. -/
def Spares : Option ℕ → Op ι → Prop
  | some n, .write (.file j) _ => j ≠ n
  | _, _ => True

/-- A file that is created does not have the inode `n`, if one is given. -/
def Avoids : Option ℕ → (c : Op ι) → Except Errno c.Val → Prop
  | some n, .create _, r => r ≠ .ok (.file n)
  | _, _, _ => True

theorem Shows.run {x : Entry} {content : Str} (h : Shows s name x content) (resolve : Str → κ)
    {c : Op ι}
    (hc : Spares (some x.memory.inode) c) :
    Shows (c.run resolve s).2 name x content ∧ Avoids (some x.memory.inode) c (c.run resolve s).1 := by
  -- all but a few operations keep the mappings, the inodes and their contents
  have h_same (s' : World ι κ) (h_mapped : s'.mapped = s.mapped) (h_inodes : s'.inodes = s.inodes)
      (h_content : s'.content = s.content) : Shows s' name x content :=
    h.extends (by rw [h_mapped]) (by rw [h_inodes]) (by rw [h_content])
  cases c with
  | lock i =>
    rw [Op.run]
    split_ifs <;> exact ⟨h_same _ rfl rfl rfl, trivial⟩
  | unlock | find | fstat | mmap => exact ⟨h_same _ rfl rfl rfl, trivial⟩
  | emplace name' m =>
    rw [Op.run, World.emplace]
    split
    · exact ⟨h, trivial⟩
    · exact ⟨h.extends (List.prefix_append _ _) (Nat.le_refl _) rfl, trivial⟩
  | mkdir path =>
    rw [Op.run, World.mkdir]
    split <;> exact ⟨h_same _ rfl rfl rfl, trivial⟩
  | «open» path =>
    rw [Op.run]
    split <;> exact ⟨h_same _ rfl rfl rfl, trivial⟩
  | unlink path =>
    rw [Op.run, World.unlink]
    split <;> exact ⟨h_same _ rfl rfl rfl, trivial⟩
  | create path =>
    -- a new inode is not the one that is shown
    have h_ne : x.memory.inode ≠ s.inodes := Nat.ne_of_lt h.inode
    rw [Op.run, World.create]
    split
    · exact ⟨h, by simp [Avoids]⟩
    · refine ⟨h.extends (List.prefix_refl _) (Nat.le_succ _) ?_, by simp [Avoids, h_ne.symm]⟩
      exact (s.setNode (resolve path) (some (.file s.inodes))).setContent_of_ne [] h_ne
  | write fd data =>
    cases fd with
    | directory => exact ⟨h, trivial⟩
    | file j =>
      -- the operation is one that spares the inode
      have h_ne : x.memory.inode ≠ j := fun h_eq => hc h_eq.symm
      exact ⟨h.extends (List.prefix_refl _) (Nat.le_refl _) (s.setContent_of_ne data h_ne), trivial⟩
  | rename old new =>
    rw [Op.run, World.rename]
    split
    · exact ⟨h, trivial⟩
    · split_ifs <;> exact ⟨h_same _ rfl rfl rfl, trivial⟩

theorem Shows.exec {x : Entry} {content : Str} (h : Shows s name x content) (resolve : Str → κ)
    (f : Option Fault) {c : Op ι} (hc : Spares (some x.memory.inode) c) :
    Shows (exec resolve f c s).2 name x content ∧
      Avoids (some x.memory.inode) c (exec resolve f c s).1 := by
  rcases f with _ | ⟨y | n⟩
  · exact h.run resolve hc
  · by_cases h_sys : c.isSysCall
    · simp only [Cache.exec, h_sys, if_true]
      refine ⟨h, ?_⟩
      cases c <;> simp [Avoids]
    · simp only [Cache.exec, h_sys]
      exact h.run resolve hc
  · cases c with
    | write fd data =>
      have h_short : Spares (some x.memory.inode) (Op.write (ι := ι) fd (data.take n)) := by
        cases fd <;> exact hc
      exact h.run resolve h_short
    | _ => exact h.run resolve hc

/-- Whether the mutex is held after a call other than `lock`, if it may be made at all. -/
def heldAfter : Bool → Op ι → Option Bool
  | _, .lock _ => none
  | true, .unlock => some false
  | false, .unlock => none
  | b, _ => some b

variable {α : Type} (n : Option ℕ)

/-- A program that begins with the mutex held, or not (`b`): it takes the mutex only where it does
not hold it, gives it back only where it does, returns without it, and never writes to the inode `n`,
if one is given. -/
def Proper : Bool → Proc ι α → Prop
  | b, .ret _ => b = false
  | _, .abort => True
  | b, .errno k => ∀ e, Proper b (k e)
  | b, .call c k => Spares n c ∧ ∃ b', heldAfter b c = some b' ∧ ∀ r, Avoids n c r → Proper b' (k r)
  | b, .spin c k => b = false ∧ (∃ i, c = .lock i) ∧ ∀ v, Proper true (k v)

variable {n} {b : Bool} {p : Proc ι α} {fs : List (Option Fault)}

theorem isSome_holder_exec {c : Op ι} {b' : Bool} (h : heldAfter b c = some b')
    (h_holder : s.holder.isSome = b) (f : Option Fault) :
    (exec resolve f c s).2.holder.isSome = b' := by
  have h_same (s' : World ι κ) (h_eq : s'.holder = s.holder) (hb : b = b') :
      s'.holder.isSome = b' := by rw [h_eq, h_holder, hb]
  have h_run : (c.run resolve s).2.holder.isSome = b' := by
    cases c with
    | lock i => simp [heldAfter] at h
    | unlock =>
      cases b with
      | false => simp [heldAfter] at h
      | true =>
        obtain rfl : false = b' := by simpa [heldAfter] using h
        rfl
    | find | fstat | mmap => exact h_same _ rfl (by simpa [heldAfter] using h)
    | write fd data => cases fd <;> exact h_same _ rfl (by simpa [heldAfter] using h)
    | rename old new =>
      rw [Op.run, World.rename]
      split
      · exact h_same _ rfl (by simpa [heldAfter] using h)
      · split_ifs <;> exact h_same _ rfl (by simpa [heldAfter] using h)
    | _ =>
      simp only [Op.run, World.emplace, World.mkdir, World.unlink, World.create]
      split <;> exact h_same _ rfl (by simpa [heldAfter] using h)
  rcases f with _ | ⟨y | m⟩
  · exact h_run
  · by_cases h_sys : c.isSysCall
    · simp only [exec, h_sys, if_true]
      refine h_same s rfl ?_
      cases c <;> simp_all [Op.isSysCall, heldAfter]
    · simp only [exec, h_sys]
      exact h_run
  · cases c with
    | write fd data => cases fd <;> exact h_same _ rfl (by simpa [heldAfter] using h)
    | _ => exact h_run

theorem isSome_holder_lock {f : Option Fault} {s₀ : World ι κ} {v : Unit}
    (h : exec resolve f (.lock i) s₀ = (.ok v, s)) : s.holder.isSome = true := by
  have h_run : exec resolve f (.lock i) s₀ = (Op.lock i).run resolve s₀ := by
    rcases f with _ | ⟨y | m⟩ <;> rfl
  rw [h_run, Op.run] at h
  split_ifs at h
  · obtain rfl := (Prod.mk.inj h).2
    rfl
  · simp at h

/-- A program that returns has given the mutex back. -/
theorem Proper.holder (h : Proper none b p) (h_holder : s.holder.isSome = b) {a : α}
    (h_done : ((machine resolve).run p e fs s).outcome = .done a) :
    ((machine resolve).run p e fs s).state.holder = none := by
  induction p generalizing b e fs s with
  | ret a =>
    obtain rfl : b = false := h
    simpa using h_holder
  | abort => simp at h_done
  | errno k ih => exact ih e (h e) h_holder h_done
  | call c k ih =>
    obtain ⟨-, b', h_after, h_next⟩ := h
    exact ih _ (h_next _ trivial) (isSome_holder_exec h_after h_holder fs.head?.join) h_done
  | spin c k ih =>
    obtain ⟨-, ⟨i, rfl⟩, h_next⟩ := h
    rw [Machine.run] at h_done ⊢
    rcases h_eq : (machine resolve).retry (.lock i) e fs s with ⟨_ | v, e', fs', s'⟩
    · simp [h_eq] at h_done
    · rw [h_eq] at h_done
      obtain ⟨f, h_exec⟩ := (machine resolve).retry_eq_some h_eq
      exact ih v (h_next v) (isSome_holder_lock h_exec) h_done

/-- A program that never writes to the inode of a mapping leaves the mapping as it is. -/
theorem Proper.shows {x : Entry} {content : Str} (h : Proper (some x.memory.inode) b p)
    (h_shows : Shows s name x content) :
    Shows ((machine resolve).run p e fs s).state name x content := by
  induction p generalizing b e fs s with
  | ret a => exact h_shows
  | abort => exact h_shows
  | errno k ih => exact ih e (h e) h_shows
  | call c k ih =>
    obtain ⟨h_spares, b', -, h_next⟩ := h
    obtain ⟨h_shows', h_avoids⟩ := h_shows.exec resolve fs.head?.join h_spares
    exact ih _ (h_next _ h_avoids) h_shows'
  | spin c k ih =>
    obtain ⟨-, ⟨i, rfl⟩, h_next⟩ := h
    have h_lock (f : Option Fault) (s : World ι κ) (h : Shows s name x content) :
        Shows (exec resolve f (.lock i) s).2 name x content :=
      (h.exec resolve f (c := .lock i) trivial).1
    have h_retry := (machine resolve).retry_preserves h_lock e fs h_shows
    rw [Machine.run]
    split
    · next h_eq => exact ih _ (h_next _) (by rwa [h_eq] at h_retry)
    · next h_eq => rwa [h_eq] at h_retry

/-! ### `get` is proper -/

variable (n)

theorem proper_leave (a : α) : Proper n true (leave a : Proc ι α) := by
  refine ⟨by simp [Spares], false, rfl, fun r _ => ?_⟩
  cases r with
  | ok v => rfl
  | error x => trivial

theorem proper_always {c : Op ι} {k : c.Val → Proc ι α} (hc : Spares n c) {b' : Bool}
    (h_after : heldAfter b c = some b') (hk : ∀ v, Proper n b' (k v)) :
    Proper n b (always c >>= k) := by
  refine ⟨hc, b', h_after, fun r _ => ?_⟩
  cases r with
  | ok v => exact hk v
  | error x => trivial

theorem proper_mapFile (name : Str) (fd : Node) : Proper n true (mapFile name fd : Proc ι _) := by
  rw [mapFile]
  refine ⟨by simp [Spares], true, rfl, fun r _ => ?_⟩
  cases r with
  | error x => trivial
  | ok size =>
    refine ⟨by simp [Spares], true, rfl, fun r _ => ?_⟩
    cases r with
    | error x => exact proper_leave n none
    | ok m =>
      exact proper_always n (by simp [Spares]) rfl fun p => proper_leave n (some p)

/-- The file that is written is one that was created. -/
theorem proper_store (name result : Str) : Proper n true (store cacheDir name result : Proc ι _) := by
  rw [store]
  refine ⟨by simp [Spares], true, rfl, fun r h_r => ?_⟩
  cases r with
  | error x => exact proper_leave n none
  | ok fd =>
    have h_write : Spares n (Op.write (ι := ι) fd result) := by
      cases n with
      | none => trivial
      | some n =>
        cases fd with
        | directory => trivial
        | file j =>
          rintro rfl
          exact h_r rfl
    refine ⟨h_write, true, by cases fd <;> rfl, fun r _ => ?_⟩
    cases r with
    | error x => trivial
    | ok m =>
      change Proper n true (if m ≠ result.length then _ else _)
      split_ifs
      · trivial
      · refine ⟨by simp [Spares], true, rfl, fun r _ => ?_⟩
        cases r with
        | error x => trivial
        | ok u => exact proper_mapFile n name fd

theorem proper_populate (name result : Str) :
    Proper n true (populate cacheDir name result : Proc ι _) := by
  rw [populate]
  refine proper_always n (by simp [Spares]) rfl fun v => ?_
  cases v with
  | some x => exact proper_leave n (some x.address)
  | none => exact ⟨by simp [Spares], true, rfl, fun r _ => proper_store n name result⟩

theorem proper_openFile (i : ι) (name : Str) (fetch : Option Str) :
    Proper n true (openFile cacheDir i name fetch) := by
  have h_fetch : Proper n true (fetchFile cacheDir i name fetch) := by
    unfold fetchFile
    refine proper_always n (by simp [Spares]) (by rfl : heldAfter true .unlock = some false) fun _ => ?_
    cases fetch with
    | none => rfl
    | some result => exact ⟨rfl, ⟨i, rfl⟩, fun _ => proper_populate n name result⟩
  rw [openFile]
  refine ⟨by simp [Spares], true, rfl, fun r _ => ?_⟩
  cases r with
  | ok fd => exact proper_mapFile n name fd
  | error x =>
    change Proper n true (if x ≠ .ENOENT then _ else _)
    split_ifs
    · trivial
    · exact h_fetch

theorem proper_get (i : ι) (name : Str) (fetch : Option Str) :
    Proper n false (get cacheDir i name fetch) := by
  refine ⟨rfl, ⟨i, rfl⟩, fun _ => proper_always n (by simp [Spares]) rfl fun v => ?_⟩
  cases v with
  | some x => exact proper_leave n (some x.address)
  | none =>
    change Proper n true (openOrFetch cacheDir i name fetch)
    rw [openOrFetch]
    split_ifs
    · trivial
    refine ⟨by simp [Spares], true, rfl, fun r _ => ?_⟩
    cases r with
    | ok u => exact proper_openFile n i name fetch
    | error x =>
      change Proper n true (if x ≠ .EEXIST then _ else _)
      split_ifs
      · exact proper_leave n none
      · exact proper_openFile n i name fetch

end Kept

/-! ### Without faults -/

section Fetched

variable {α : Type} {Q : α → World ι κ → Prop}

/-- A program returns, without faults, where `Q` holds. -/
abbrev Ends (resolve : Str → κ) (p : Proc ι α) (e : Errno) (s : World ι κ)
    (Q : α → World ι κ → Prop) : Prop :=
  (machine resolve).Wp p e s fun a _ s' => Q a s'

theorem ends_sys {c : Op ι} {r : Except Errno c.Val} {k : Except Errno c.Val → Proc ι α}
    (h_run : c.run resolve s = (r, s')) (hk : ∀ e', Ends resolve (k r) e' s' Q) :
    Ends resolve (sys c >>= k) e s Q :=
  Machine.wp_call_of_exec h_run (hk _)

theorem ends_always {c : Op ι} {v : c.Val} {k : c.Val → Proc ι α}
    (h_run : c.run resolve s = (.ok v, s')) (hk : ∀ e', Ends resolve (k v) e' s' Q) :
    Ends resolve (always c >>= k) e s Q :=
  Machine.wp_call_of_exec h_run (hk _)

theorem ends_lock {k : Unit → Proc ι α} (h : s.holder = none)
    (hk : Ends resolve (k ()) e { s with holder := some i } Q) :
    Ends resolve (lock i >>= k) e s Q := by
  have h_lock : (Op.lock i).run resolve s = (.ok (), { s with holder := some i }) := by
    simp only [Op.run, h, if_true]
  exact Machine.wp_spin_of_exec h_lock hk

theorem ends_leave {a : α} (h : Q a { s with holder := none }) : Ends resolve (leave a) e s Q :=
  ends_always rfl fun _ => (Machine.wp_ret _ _ _).mpr h

/-- What `get` of `name` comes to when the file has `content`. -/
def Mapped (resolve : Str → κ) (cacheDir name content : Str) (r : Option ℕ) (s : World ι κ) : Prop :=
  if content = [] then r = none
  else ∃ x, r = some x.address ∧ Shows s name x content ∧
    s.node (resolve (cacheFilePath cacheDir name)) = some (.file x.memory.inode)

/-- There is no mapping, and the addresses of the others are in use. -/
structure Unmapped (s : World ι κ) (name : Str) : Prop where
  find : s.find name = none
  addresses : ∀ m ∈ s.mapped, m.2.address < s.addresses

omit [DecidableEq κ] in
theorem shows_added {m : Memory} (h : Unmapped s name) (h_lt : m.inode < s.inodes)
    (h_size : m.size = (s.content m.inode).length) :
    Shows (s.added name m) name ⟨s.addresses, m⟩ (s.content m.inode) := by
  have h_find : s.mapped.find? (·.1 = name) = none := Option.map_eq_none_iff.mp h.find
  have h_address : s.mapped.find? (·.2.address = s.addresses) = none := by
    rw [List.find?_eq_none]
    intro m hm
    simpa using Nat.ne_of_lt (h.addresses m hm)
  refine ⟨?_, ?_, h_lt, h_size, rfl⟩
  · rw [World.find, World.added, List.find?_append, h_find]
    simp
  · rw [World.added, List.find?_append, h_address]
    simp

/-- An empty file cannot be mapped. -/
theorem ends_mapFile {j : ℕ} (h : Unmapped s name) (h_lt : j < s.inodes)
    (h_file : s.node (resolve (cacheFilePath cacheDir name)) = some (.file j)) :
    Ends resolve (mapFile name (.file j)) e s (Mapped resolve cacheDir name (s.content j)) := by
  have h_fstat : (Op.fstat (ι := ι) (.file j)).run resolve s = (.ok (s.content j).length, s) := rfl
  rw [mapFile]
  refine ends_sys h_fstat fun e' => ?_
  by_cases h_empty : s.content j = []
  · exact ends_sys (run_mmap_empty h_empty) fun e' => ends_leave (by rw [Mapped, if_pos h_empty])
  · refine ends_sys (run_mmap_file h_empty) fun e' => ?_
    refine ends_always (run_emplace_new h.find _) fun e' => ends_leave ?_
    rw [Mapped, if_neg h_empty]
    have h_shows := shows_added (m := ⟨j, (s.content j).length⟩) h h_lt rfl
    exact ⟨_, rfl, h_shows.extends (List.prefix_refl _) (Nat.le_refl _) rfl, h_file⟩

/-- A new file is written and mapped. -/
theorem ends_store {content : Str} (h : Unmapped s name)
    (h_temporary : s.node (resolve (temporary cacheDir name)) = none)
    (h_file : s.node (resolve (cacheFilePath cacheDir name)) = none) :
    Ends resolve (store cacheDir name content) e s (Mapped resolve cacheDir name content) := by
  rw [store]
  refine ends_sys (run_create_none h_temporary) fun e' => ?_
  have h_node : (s.created (resolve (temporary cacheDir name))).node
      (resolve (temporary cacheDir name)) = some (.file s.inodes) := s.setNode_self _ _
  -- where the file is to be, there is none, and no directory either
  have h_free : (s.created (resolve (temporary cacheDir name))).node
      (resolve (cacheFilePath cacheDir name)) ≠ some .directory := by
    by_cases h_eq : resolve (cacheFilePath cacheDir name) = resolve (temporary cacheDir name)
    · rw [h_eq, h_node]
      simp
    · have h_other : (s.created (resolve (temporary cacheDir name))).node
          (resolve (cacheFilePath cacheDir name)) = s.node (resolve (cacheFilePath cacheDir name)) :=
        s.setNode_of_ne _ h_eq
      rw [h_other, h_file]
      simp
  have h_lt : s.inodes < (s.created (resolve (temporary cacheDir name))).inodes := Nat.lt_succ_self _
  have h_created : Unmapped (s.created (resolve (temporary cacheDir name))) name := ⟨h.find, h.addresses⟩
  generalize s.created (resolve (temporary cacheDir name)) = t at *
  have h_write : (Op.write (ι := ι) (.file s.inodes) content).run resolve t
      = (.ok content.length, t.setContent s.inodes content) := rfl
  refine ends_sys h_write fun e' => ?_
  change Ends resolve (if content.length ≠ content.length then _ else _) e' _ _
  rw [if_neg (not_not.mpr rfl)]
  -- behind the renaming the file is mapped as it is
  have h_map (u : World ι κ) (h_mapped : u.mapped = t.mapped) (h_addresses : u.addresses = t.addresses)
      (h_inodes : u.inodes = t.inodes) (h_content : u.content s.inodes = content)
      (h_named : u.node (resolve (cacheFilePath cacheDir name)) = some (.file s.inodes)) (e' : Errno) :
      Ends resolve (mapFile name (.file s.inodes)) e' u (Mapped resolve cacheDir name content) := by
    have h_unmapped : Unmapped u name := by
      refine ⟨?_, ?_⟩
      · rw [World.find, h_mapped]
        exact h_created.find
      · rw [h_mapped, h_addresses]
        exact h_created.addresses
    rw [← h_content]
    exact ends_mapFile h_unmapped (by rw [h_inodes]; exact h_lt) h_named
  have h_content := t.setContent_self s.inodes content
  by_cases h_eq : resolve (temporary cacheDir name) = resolve (cacheFilePath cacheDir name)
  · -- the two names may denote one place, and then the renaming does nothing
    have h_node' : (t.setContent s.inodes content).node (resolve (cacheFilePath cacheDir name))
        = some (.file s.inodes) := h_eq ▸ h_node
    have h_rename : (Op.rename (ι := ι) (temporary cacheDir name) (cacheFilePath cacheDir name)).run
        resolve (t.setContent s.inodes content) = (.ok (), t.setContent s.inodes content) := by
      simp only [Op.run, World.rename, h_eq, h_node', if_true]
    exact ends_sys h_rename fun e' => h_map _ (by rfl) (by rfl) (by rfl) (by exact h_content) h_node' e'
  · have h_rename := run_rename (s := t.setContent s.inodes content) h_node h_eq h_free
    refine ends_sys h_rename fun e' => ?_
    exact h_map _ (by rfl) (by rfl) (by rfl) (by exact h_content) (World.setNode_self _ _ _) e'

/-- `get` finds no file for `name`, and nothing is in the way of the temporary one. -/
structure Absent (resolve : Str → κ) (cacheDir : Str) (s : World ι κ) (name : Str) : Prop where
  file : (s.mkdir resolve (getFileName cacheDir name).1).2.node
    (resolve (cacheFilePath cacheDir name)) = none
  temporary : (s.mkdir resolve (getFileName cacheDir name).1).2.node
    (resolve (temporary cacheDir name)) ≠ some .directory

/-- `get` after `fetch`, where the file is still absent. -/
theorem ends_populate {content : Str} (h : Unmapped s name)
    (h_file : s.node (resolve (cacheFilePath cacheDir name)) = none)
    (h_temporary : s.node (resolve (temporary cacheDir name)) ≠ some .directory) :
    Ends resolve (populate cacheDir name content) e s (Mapped resolve cacheDir name content) := by
  have h_find : (Op.find (ι := ι) name).run resolve s = (.ok none, s) := by
    rw [Op.run, h.find]
  rw [populate]
  refine ends_always h_find fun e' => ?_
  rcases h_node : s.node (resolve (temporary cacheDir name)) with _ | ⟨j⟩ | _
  · have h_unlink : (Op.unlink (ι := ι) (temporary cacheDir name)).run resolve s
        = (.error .ENOENT, s) := by simp only [Op.run, World.unlink, h_node]
    exact ends_sys h_unlink fun e' => ends_store h h_node h_file
  · have h_unlink : (Op.unlink (ι := ι) (temporary cacheDir name)).run resolve s
        = (.ok (), s.setNode (resolve (temporary cacheDir name)) none) := by
      simp only [Op.run, World.unlink, h_node]
    refine ends_sys h_unlink fun e' => ends_store ⟨h.find, h.addresses⟩ (s.setNode_self _ _) ?_
    by_cases h_eq : resolve (cacheFilePath cacheDir name) = resolve (temporary cacheDir name)
    · rw [h_eq, s.setNode_self]
    · rw [s.setNode_of_ne _ h_eq]
      exact h_file
  · exact absurd h_node h_temporary

/-- `get` up to `mkdir`, where there is no mapping. -/
theorem ends_get_unmapped {fetch : Option Str} {Q : Option ℕ → World ι κ → Prop}
    (h : Unmapped s name) (h_holder : s.holder = none) (h_length : 2 ≤ name.length)
    (h_open : ∀ t : World ι κ, Unmapped t name → t.inodes = s.inodes → t.content = s.content →
      t.node = (s.mkdir resolve (getFileName cacheDir name).1).2.node →
      ∀ e', Ends resolve (openFile cacheDir i name fetch) e' t Q) :
    Ends resolve (get cacheDir i name fetch) e s Q := by
  have h_find : (Op.find (ι := ι) name).run resolve { s with holder := some i }
      = (.ok none, { s with holder := some i }) := congrArg (fun r => (Except.ok r, _)) h.find
  refine ends_lock h_holder (ends_always h_find fun e' => ?_)
  change Ends resolve (openOrFetch cacheDir i name fetch) e' _ _
  rw [openOrFetch, if_neg (by omega)]
  rcases h_node : s.node (resolve (getFileName cacheDir name).1) with _ | nd
  · refine ends_sys (run_mkdir_none h_node) fun e' => ?_
    refine h_open _ (by exact ⟨h.find, h.addresses⟩) (by rfl) (by rfl) ?_ e'
    simp only [World.mkdir, h_node]
    rfl
  · refine ends_sys (run_mkdir_some h_node) fun e' => ?_
    change Ends resolve (if Errno.EEXIST ≠ .EEXIST then _ else _) e' _ _
    rw [if_neg (not_not.mpr rfl)]
    refine h_open _ (by exact ⟨h.find, h.addresses⟩) (by rfl) (by rfl) ?_ e'
    simp only [World.mkdir, h_node]

/-- **`get` where there is neither a mapping nor a file.** -/
theorem ends_get_fetched {content : Str} (h : Unmapped s name) (h_holder : s.holder = none)
    (h_length : 2 ≤ name.length) (h_absent : Absent resolve cacheDir s name) :
    Ends resolve (get cacheDir i name (some content)) e s
      (Mapped resolve cacheDir name content) := by
  refine ends_get_unmapped h h_holder h_length fun t h_t _ _ h_node e' => ?_
  obtain ⟨h_file, h_temporary⟩ := h_absent
  rw [← h_node] at h_file h_temporary
  rw [openFile]
  refine ends_sys (run_open_none h_file) fun e' => ?_
  have h_unlock : (Op.unlock (ι := ι)).run resolve t = (.ok (), { t with holder := none }) := rfl
  refine ends_always h_unlock fun e' => ends_lock rfl ?_
  exact ends_populate ⟨h_t.find, h_t.addresses⟩ h_file h_temporary

/-- **`get` where there is a file.** -/
theorem ends_get_file {fetch : Option Str} {j : ℕ} (h : Unmapped s name) (h_holder : s.holder = none)
    (h_length : 2 ≤ name.length) (h_lt : j < s.inodes)
    (h_file : s.node (resolve (cacheFilePath cacheDir name)) = some (.file j)) :
    Ends resolve (get cacheDir i name fetch) e s (Mapped resolve cacheDir name (s.content j)) := by
  refine ends_get_unmapped h h_holder h_length fun t h_t h_inodes h_content h_node e' => ?_
  have h_file' : t.node (resolve (cacheFilePath cacheDir name)) = some (.file j) := by
    rw [h_node, World.mkdir]
    split
    · exact h_file
    · next h_none =>
      have h_ne : resolve (cacheFilePath cacheDir name) ≠ resolve (getFileName cacheDir name).1 := by
        intro h_eq
        rw [← h_eq, h_file] at h_none
        simp at h_none
      exact (s.setNode_of_ne _ h_ne).trans h_file
  rw [openFile, ← h_content]
  exact ends_sys (run_open_some h_file') fun e' => ends_mapFile h_t (by rw [h_inodes]; exact h_lt) h_file'

/-- **`get` where there is a mapping.** -/
theorem ends_get_mapped {x : Entry} {fetch : Option Str} (h : s.find name = some x)
    (h_holder : s.holder = none) :
    Ends resolve (get cacheDir i name fetch) e s fun r _ => r = some x.address := by
  have h_find : (Op.find (ι := ι) name).run resolve { s with holder := some i }
      = (.ok (some x), { s with holder := some i }) := congrArg (fun r => (Except.ok r, _)) h
  exact ends_lock h_holder (ends_always h_find fun e' => ends_leave rfl)

end Fetched

/-! ### Later calls -/

/-- The state after some more calls of `get` that return, under any faults. -/
inductive Later (resolve : Str → κ) (cacheDir : Str) (s : World ι κ) : World ι κ → Prop
  | refl : Later resolve cacheDir s s
  | get {s' : World ι κ} (h : Later resolve cacheDir s s') (i : ι) (name : Str) (fetch : Option Str) (e : Errno)
      (fs : List (Option Fault)) (r : Option ℕ)
      (h_done : ((machine resolve).run (get cacheDir i name fetch) e fs s').outcome = .done r) :
      Later resolve cacheDir s ((machine resolve).run (get cacheDir i name fetch) e fs s').state

theorem Later.keeps {x : Entry} {content : Str} (h : Later resolve cacheDir s s')
    (h_shows : Shows s name x content) (h_holder : s.holder = none) :
    Shows s' name x content ∧ s'.holder = none := by
  induction h with
  | refl => exact ⟨h_shows, h_holder⟩
  | get h i name fetch e fs r h_done ih =>
    exact ⟨(proper_get _ i name fetch).shows ih.1,
      (proper_get _ i name fetch).holder (by rw [ih.2]; rfl) h_done⟩

/-! ### What is served -/

section Served

/-- A pointer to an element of `name` with `content` was returned. -/
def Serves (name content : Str) (r : Option ℕ) (s : World ι κ) : Prop :=
  ∃ p, r = some p ∧ s.deref p = some (name, content.length, content)

/-- What a `get` returned is the content, and so is what later ones return, in this process and in
one that is started on the same directory. -/
structure Served (resolve : Str → κ) (cacheDir name content : Str) (r : Option ℕ) (s : World ι κ) :
    Prop where
  now : Serves name content r s
  later : ∀ s', Later resolve cacheDir s s' → ∀ i fetch e,
    Ends resolve (get cacheDir i name fetch) e s' (Serves name content)
  restarted : ∀ i fetch e,
    Ends resolve (get cacheDir i name fetch) e { s with mapped := [] } (Serves name content)

omit [DecidableEq κ] in
theorem Shows.serves {x : Entry} {content : Str} (h : Shows s name x content) :
    Serves name content (some x.address) s := by
  refine ⟨x.address, rfl, ?_⟩
  rw [World.deref, h.deref, Option.map_some, h.size, h.content, List.take_length]

theorem Mapped.served {content : Str} {r : Option ℕ} (h : Mapped resolve cacheDir name content r s)
    (h_content : content ≠ []) (h_holder : s.holder = none) (h_length : 2 ≤ name.length) :
    Served resolve cacheDir name content r s := by
  rw [Mapped, if_neg h_content] at h
  obtain ⟨x, rfl, h_shows, h_file⟩ := h
  refine ⟨h_shows.serves, fun s' h_later i fetch e => ?_, fun i fetch e => ?_⟩
  · obtain ⟨h_shows', h_holder'⟩ := h_later.keeps h_shows h_holder
    have h_ends : Ends resolve (get cacheDir i name fetch) e s' fun r _ => r = some x.address :=
      ends_get_mapped h_shows'.find h_holder'
    obtain ⟨a, h_done, rfl⟩ := h_ends
    exact ⟨_, h_done, ((proper_get _ i name fetch).shows h_shows').serves⟩
  · have h_unmapped : Unmapped { s with mapped := [] } name := ⟨rfl, by simp⟩
    refine (ends_get_file h_unmapped h_holder h_length h_shows.inode h_file).mono
      fun r _ s' h_mapped => ?_
    rw [h_shows.content, Mapped, if_neg h_content] at h_mapped
    obtain ⟨y, rfl, h_y, -⟩ := h_mapped
    exact h_y.serves

/-- **What is served.** Where `get` finds neither a mapping nor a file, and `fetch` returns `content`,
the content is served, and `FileElement::Open` of `gitlstree.cc` returns 0, just if it is not
empty. -/
theorem served_iff {content : Str} (h : Unmapped s name) (h_holder : s.holder = none)
    (h_length : 2 ≤ name.length) (h_absent : Absent resolve cacheDir s name) (i : ι) (e : Errno) :
    Ends resolve (get cacheDir i name (some content)) e s (Served resolve cacheDir name content) ∧
      Ends resolve (gitlstreeOpen cacheDir i name content none) e s (fun r _ => r.1 = 0) ↔
    content ≠ [] := by
  have h_get : Ends resolve (get cacheDir i name (some content)) e s
      (Mapped resolve cacheDir name content) := ends_get_fetched h h_holder h_length h_absent
  constructor
  · rintro ⟨h_served, -⟩ rfl
    obtain ⟨r, h_done, h_none⟩ := h_get
    obtain ⟨r', h_done', ⟨p, rfl, -⟩, -⟩ := h_served
    rw [Mapped, if_pos rfl] at h_none
    rw [h_done, h_none] at h_done'
    simp at h_done'
  · intro h_content
    constructor
    · obtain ⟨r, h_done, h_mapped⟩ := h_get
      have h_free := (proper_get none i name (some content)).holder (by rw [h_holder]; rfl) h_done
      exact ⟨r, h_done, h_mapped.served h_content h_free h_length⟩
    · refine Machine.wp_bind.mpr (Machine.wp_bind.mpr (h_get.mono fun r e' s' h_mapped => ?_))
      rw [Mapped, if_neg h_content] at h_mapped
      obtain ⟨x, rfl, -⟩ := h_mapped
      exact (Machine.wp_ret _ _ _).mpr ((Machine.wp_ret _ _ _).mpr rfl)

/-- The first `get` of a blob in an empty cache. -/
theorem served_iff_first :
    Ends id (get (str "c/") () (str "5c7b") (some (str "x"))) .EINVAL
        (⟨none, [], fun _ => none, fun _ => [], 0, 0⟩ : World Unit Str)
        (Served id (str "c/") (str "5c7b") (str "x")) :=
  ((served_iff ⟨rfl, by simp⟩ rfl (by decide) ⟨by decide, by decide⟩ () .EINVAL).mpr (by decide)).1

/-- An empty blob is not mapped, and ends the process. -/
theorem empty_not_served :
    ¬ Ends id (gitlstreeOpen (str "c/") () (str "5c7b") [] none) .EINVAL
        (⟨none, [], fun _ => none, fun _ => [], 0, 0⟩ : World Unit Str) fun r _ => r.1 = 0 := by
  rintro ⟨r, h_done, -⟩
  have h_aborted : ((machine id).run (gitlstreeOpen (str "c/") () (str "5c7b") [] none) .EINVAL []
      (⟨none, [], fun _ => none, fun _ => [], 0, 0⟩ : World Unit Str)).outcome = .aborted := by
    decide +kernel
  rw [h_aborted] at h_done
  simp at h_done

end Served

end GitlstreeFS.Cache
