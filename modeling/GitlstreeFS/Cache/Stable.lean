import GitlstreeFS.Cache.Concurrent
import GitlstreeFS.Cache.Release
import GitlstreeFS.Memory

/-!
# Stable entries

What the files of a mounted tree rely on: once `get` has succeeded for a name, there is an entry with the
content of that name, and it stays (`StableCache`).

`cachedFiles` says that the cache of `cached_file.cc` is such, as long as the files in its directory are
those of their names.
-/

namespace GitlstreeFS.Cache

open Effect
open Posix (Errno)

/-- A cache whose entries stay, and show the content of their names. -/
structure StableCache (blob : Str → Str) where
  State : Type
  /-- The address of the entry for a name. -/
  find : State → Str → Option ℕ
  /-- What is at an address: an entry with its name and its content. -/
  shows : State → ℕ → Option (Str × Str)
  /-- `get`, with what it returns and the state behind it. -/
  get : State → Str → Option ℕ → State → Prop
  /-- `release`, where it is defined. -/
  release : State → Str → Option ℕ → State → Prop
  sound : ∀ s name p, find s name = some p → shows s p = some (name, blob name)
  get_keeps : ∀ s name r s' n p, get s name r s' → find s n = some p → find s' n = some p
  get_result : ∀ s name p s', get s name (some p) s' → find s' name = some p
  get_found : ∀ s name p, find s name = some p →
    (∃ s', get s name (some p) s') ∧ ∀ r s', get s name r s' → r = some p
  release_keeps : ∀ s name item s' n p, release s name item s' → find s n = some p → find s' n = some p
  release_found : ∀ s name item p, find s name = some p → ∃ s', release s name item s'

/-! ### The cache of `cached_file.cc` -/

section CachedFiles

variable {ι κ : Type} [DecidableEq κ] {resolve : Str → κ} {cacheDir : Str} {blob : Str → Str}
  {s s' : World ι κ} {name : Str} {i : ι} {e : Errno} {fs : List (Option Fault)} {r : Option ℕ}

/-- The address of the entry for a name. -/
def World.address (s : World ι κ) (name : Str) : Option ℕ :=
  (s.find name).map Entry.address

omit [DecidableEq κ] in
theorem address_eq_some {p : ℕ} : s.address name = some p ↔ ∃ x, s.find name = some x ∧ x.address = p :=
  Option.map_eq_some_iff

/-- A call of `get`, with faults, and with a `fetch` that knows the content. -/
def GetReturns (resolve : Str → κ) (cacheDir : Str) (blob : Str → Str) (s : World ι κ) (name : Str)
    (r : Option ℕ) (s' : World ι κ) : Prop :=
  IsHash name ∧ ∃ i e fs,
    Returned ((machine resolve).run (get cacheDir i name (some (blob name))) e fs s) r s'

/-- A call of `release`. -/
def ReleaseReturns (resolve : Str → κ) (s : World ι κ) (name : Str) (item : Option ℕ) (s' : World ι κ) :
    Prop :=
  ∃ i e b, Returned ((machine resolve).run (release i name item) e [] s) (some b) s'

/-- The states between calls, when nobody holds the mutex. -/
structure Idle (resolve : Str → κ) (cacheDir : Str) (blob : Str → Str) (s : World ι κ) : Prop where
  inv : Inv resolve cacheDir blob s
  holder : s.holder = none

/-- `get` alone. -/
theorem GetReturns.spec (h_resolve : Separate resolve cacheDir) (h_idle : Idle resolve cacheDir blob s)
    (h : GetReturns resolve cacheDir blob s name r s') :
    Idle resolve cacheDir blob s' ∧ Obtains name s r s' := by
  obtain ⟨h_hash, i, e, fs, h_done, rfl⟩ := h
  have h_keeps : Keeps resolve cacheDir blob i (Result resolve cacheDir blob name)
      (get cacheDir i name (some (blob name))) e s :=
    keeps_get h_resolve h_idle.inv (by rw [h_idle.holder]; simp) h_hash
      fun c h_c => (Option.some.inj h_c).symm
  have h_result : Result resolve cacheDir blob name r _ := Machine.Safe.run h_keeps h_done
  exact ⟨⟨h_result.1, (proper_get none i name _).holder (by rw [h_idle.holder]; rfl) h_done⟩,
    wlp_get _ e fs r h_done⟩

/-- `release` alone: where it is defined, it changes nothing. -/
theorem ReleaseReturns.eq {item : Option ℕ} (h_holder : s.holder = none)
    (h : ReleaseReturns resolve s name item s') : s' = s := by
  obtain ⟨i, e, b, h_done, h_state⟩ := h
  cases h_find : s.find name with
  | none =>
    have h_ends : Ends resolve (release i name item) e s fun r _ => r = none :=
      ends_release_unmapped item h_holder h_find
    obtain ⟨r, h_outcome, h_none⟩ := h_ends
    rw [h_done] at h_outcome
    obtain rfl := Outcome.done.inj h_outcome
    cases h_none
  | some x =>
    have h_ends : Ends resolve (release i name item) e s fun r t => r = some false ∧ t = s :=
      ends_release_mapped item h_holder h_find
    obtain ⟨r, -, -, h_same⟩ := h_ends
    rw [← h_state, h_same]

theorem exists_get (i : ι) {x : Entry} (h_idle : Idle resolve cacheDir blob s) (h_find : s.find name = some x) :
    ∃ s', GetReturns resolve cacheDir blob s name (some x.address) s' := by
  have h_hash := (h_idle.inv.entry name x (mem_of_find h_find)).hash
  have h_ends : Ends resolve (get cacheDir i name (some (blob name))) .EINVAL s
      fun r _ => r = some x.address := ends_get_mapped h_find h_idle.holder
  obtain ⟨r, h_done, rfl⟩ := h_ends
  exact ⟨_, h_hash, i, .EINVAL, [], h_done, rfl⟩

theorem exists_release (i : ι) {x : Entry} (item : Option ℕ) (h_idle : Idle resolve cacheDir blob s)
    (h_find : s.find name = some x) : ReleaseReturns resolve s name item s := by
  have h_ends : Ends resolve (release i name item) .EINVAL s fun r t => r = some false ∧ t = s :=
    ends_release_mapped item h_idle.holder h_find
  obtain ⟨r, h_done, rfl, h_same⟩ := h_ends
  exact ⟨i, .EINVAL, false, h_done, h_same⟩

omit [DecidableEq κ] in
theorem Obtains.address {n : Str} {p : ℕ} (h : Obtains name s r s') (h_found : s.address n = some p) :
    s'.address n = some p := by
  obtain ⟨x, h_find, rfl⟩ := address_eq_some.mp h_found
  refine address_eq_some.mpr ⟨x, ?_, rfl⟩
  cases r with
  | none =>
    obtain ⟨-, h_same⟩ := h
    rw [h_same, h_find]
  | some q =>
    obtain ⟨y, -, h_update, h_old⟩ := h
    rw [h_update]
    by_cases h_eq : n = name
    · subst h_eq
      obtain h_none | h_some := h_old
      · rw [h_find] at h_none
        cases h_none
      · rw [Function.update_self, ← h_some, h_find]
    · rw [Function.update_of_ne h_eq, h_find]

/-- **The entries of the cache stay**, and show the content of their names. -/
def cachedFiles (h_resolve : Separate resolve cacheDir) (blob : Str → Str) (i : ι) : StableCache blob where
  State := { s : World ι κ // Idle resolve cacheDir blob s }
  find s := s.1.address
  shows s p := (s.1.deref p).map fun d => (d.1, d.2.2)
  get s name r s' := GetReturns resolve cacheDir blob s.1 name r s'.1
  release s name item s' := ReleaseReturns resolve s.1 name item s'.1
  sound s name p h := by
    obtain ⟨x, h_find, rfl⟩ := address_eq_some.mp h
    rw [deref_of_mem s.2.inv (mem_of_find h_find)]
    rfl
  get_keeps s name r s' n p h h_found := (h.spec h_resolve s.2).2.address h_found
  get_result s name p s' h := by
    obtain ⟨x, rfl, h_find, -⟩ := (h.spec h_resolve s.2).2
    rw [World.address, h_find, Function.update_self]
    rfl
  get_found s name p h_found := by
    obtain ⟨x, h_find, rfl⟩ := address_eq_some.mp h_found
    obtain ⟨s', h_get⟩ := exists_get i s.2 h_find
    refine ⟨⟨⟨s', (h_get.spec h_resolve s.2).1⟩, h_get⟩, fun r s' h => ?_⟩
    have h_obtains := (h.spec h_resolve s.2).2
    cases r with
    | none =>
      rw [Obtains, h_find] at h_obtains
      cases h_obtains.1
    | some q =>
      obtain ⟨y, rfl, -, h_none | h_some⟩ := h_obtains
      · rw [h_find] at h_none
        cases h_none
      · rw [Option.some.inj (h_find.symm.trans h_some)]
  release_keeps s name item s' n p h h_found := by
    rwa [h.eq s.2.holder]
  release_found s name item p h_found := by
    obtain ⟨x, h_find, -⟩ := address_eq_some.mp h_found
    exact ⟨s, exists_release i item s.2 h_find⟩

end CachedFiles

/-! ### An empty cache -/

/-- The cache in an empty directory, where every blob is `abc`. -/
def smallCache : StableCache fun _ => str "abc" :=
  cachedFiles (κ := Str) (fun _ _ _ _ h_eq => h_eq : Separate id (str "c/")) (fun _ => str "abc") ()

/-- Nothing has been fetched. -/
def smallWorld : World Unit Str :=
  ⟨none, [], fun _ => none, fun _ => [], 0, 0⟩

theorem idle_smallWorld : Idle id (str "c/") (fun _ => str "abc") smallWorld :=
  ⟨inv_fresh rfl fun _ _ => Or.inl rfl, rfl⟩

/-- The first `get`. -/
theorem smallCache_get :
    ∃ entries, smallCache.get ⟨smallWorld, idle_smallWorld⟩ (List.replicate 40 0x61) (some 0) entries := by
  have h_hash : IsHash (List.replicate 40 0x61) := by
    refine ⟨rfl, fun b hb => ?_⟩
    rw [List.eq_of_mem_replicate hb]
    exact ⟨10, rfl, by decide⟩
  have h_get : GetReturns id (str "c/") (fun _ => str "abc") smallWorld (List.replicate 40 0x61) (some 0)
      ((machine id).run (get (str "c/") () (List.replicate 40 0x61) (some (str "abc"))) .EINVAL []
        smallWorld).state :=
    ⟨h_hash, (), .EINVAL, [], by decide +kernel, rfl⟩
  exact ⟨⟨_, (h_get.spec (fun _ _ _ _ h_eq => h_eq) idle_smallWorld).1⟩, h_get⟩

end GitlstreeFS.Cache
