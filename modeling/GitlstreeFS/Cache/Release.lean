import GitlstreeFS.Cache.Serve
import Mathlib.Data.Set.Insert

/-!
# Giving mappings back

`get` hands out the pointer of a mapping, and `release` is to remove the mapping when it is given the
pointer back, to answer `false` for a name that is not mapped, and to leave all other mappings alone.
`Contract` says this of a sequence of calls, together with what follows from it: the names that are
mapped are those that were obtained and not given back.

The condition in `release` is the wrong way round. It answers `false` for every name that is mapped
and keeps the mapping, and for one that is not it goes on with `end()`. So the contract holds as long
as it asks nothing of `release` (`contract_iff`). `git-githubfs.cc` gives back whatever `Open` has
left in `memory_`, also after an `Open` that failed (`githubfs_session`).
-/

namespace GitlstreeFS.Cache

open Effect
open Posix (Errno)

variable {ι κ : Type} [DecidableEq κ] {resolve : Str → κ} {cacheDir : Str} {s s' : World ι κ}
  {name : Str} {i : ι} {e : Errno}

/-! ### What `get` does to the mappings -/

section Mappings

variable {α : Type} {Q : α → World ι κ → Prop}

/-- What `get` of `name` does to the mappings: it returns the pointer of the one for `name`, which may
be new, or a null pointer, and then there is none. -/
def Obtains (name : Str) (s : World ι κ) (r : Option ℕ) (s' : World ι κ) : Prop :=
  match r with
  | none => s.find name = none ∧ s'.find = s.find
  | some p => ∃ x : Entry, x.address = p ∧ s'.find = Function.update s.find name (some x) ∧
      (s.find name = none ∨ s.find name = some x)

def Op.isEmplace : Op ι → Bool
  | .emplace _ _ => true
  | _ => false

variable (resolve) in
theorem mapped_run {c : Op ι} (h : c.isEmplace = false) (s : World ι κ) :
    (c.run resolve s).2.mapped = s.mapped := by
  cases c with
  | emplace name m => simp [Op.isEmplace] at h
  | unlock | find | fstat | mmap => rfl
  | write fd data => cases fd <;> rfl
  | rename old new =>
    rw [Op.run, World.rename]
    split
    · rfl
    · split_ifs <;> rfl
  | _ =>
    simp only [Op.run, World.mkdir, World.unlink, World.create]
    split <;> rfl

/-- Only `emplace` changes the mappings, whatever fails. -/
theorem mapped_exec {c : Op ι} (h : c.isEmplace = false) (f : Option Fault) (s : World ι κ) :
    (exec resolve f c s).2.mapped = s.mapped := by
  rcases f with _ | ⟨y | n⟩
  · exact mapped_run resolve h s
  · by_cases h_sys : c.isSysCall
    · simp only [exec, h_sys, if_true]
    · simp only [exec, h_sys]
      exact mapped_run resolve h s
  · cases c with
    | write fd data => cases fd <;> rfl
    | _ => exact mapped_run resolve h s

theorem wlp_sys {c : Op ι} {k : Except Errno c.Val → Proc ι α} (hc : c.isEmplace = false)
    (hk : ∀ r t, t.mapped = s.mapped → (machine resolve).Wlp (k r) t Q) :
    (machine resolve).Wlp (sys c >>= k) s Q :=
  Machine.wlp_call fun f => hk _ _ (mapped_exec hc f s)

theorem wlp_leave {a : α} (h : ∀ t, t.mapped = s.mapped → Q a t) :
    (machine resolve).Wlp (leave a) s Q := by
  refine wlp_sys (c := .unlock) rfl fun r t h_mapped => ?_
  cases r with
  | ok v => exact Machine.wlp_ret (h t h_mapped)
  | error x => exact Machine.wlp_abort

theorem wlp_lock {k : Unit → Proc ι α}
    (hk : ∀ t, t.mapped = s.mapped → (machine resolve).Wlp (k ()) t Q) :
    (machine resolve).Wlp (lock i >>= k) s Q := by
  refine Machine.wlp_spin fun f v t h_exec => hk t ?_
  have h_mapped : ((machine resolve).exec f (.lock i) s).2.mapped = s.mapped :=
    mapped_exec (c := .lock i) rfl f s
  rwa [h_exec] at h_mapped

theorem wlp_find {k : Option Entry → Proc ι α} (hk : (machine resolve).Wlp (k (s.find name)) s Q) :
    (machine resolve).Wlp (always (.find name) >>= k) s Q := by
  refine Machine.wlp_call fun f => ?_
  have h_exec : (machine resolve).exec f (.find name) s = (.ok (s.find name), s) := by
    rcases f with _ | ⟨y | n⟩ <;> rfl
  rw [h_exec]
  exact hk

omit [DecidableEq κ] in
theorem find_eq {t : World ι κ} (h : t.mapped = s.mapped) : t.find = s.find := by
  funext name
  rw [World.find, World.find, h]

omit [DecidableEq κ] in
theorem obtains_none {t : World ι κ} (h_find : s.find name = none) (h : t.mapped = s.mapped) :
    Obtains name s none t :=
  ⟨h_find, find_eq h⟩

omit [DecidableEq κ] in
theorem obtains_mapped {t : World ι κ} {x : Entry} (h : t.mapped = s.mapped)
    (h_find : s.find name = some x) : Obtains name s (some x.address) t := by
  refine ⟨x, rfl, ?_, Or.inr h_find⟩
  rw [find_eq h, ← h_find, Function.update_eq_self]

omit [DecidableEq κ] in
theorem find_added (h : s.find name = none) (m : Memory) :
    (s.added name m).find = Function.update s.find name (some ⟨s.addresses, m⟩) := by
  funext name'
  rw [World.find, World.added, List.find?_append]
  by_cases h_eq : name' = name
  · subst h_eq
    have h_none : s.mapped.find? (·.1 = name') = none := Option.map_eq_none_iff.mp h
    simp [h_none]
  · rw [Function.update_of_ne h_eq, World.find]
    simp [Ne.symm h_eq]

/-- A call without a mapping for `name` up to here. -/
abbrev Obtaining (resolve : Str → κ) (name : Str) (s : World ι κ) (p : Proc ι (Option ℕ)) : Prop :=
  ∀ t, t.mapped = s.mapped → (machine resolve).Wlp p t (Obtains name s)

theorem obtaining_leave (h_find : s.find name = none) : Obtaining resolve name s (leave none) :=
  fun _ h => wlp_leave fun _ h' => obtains_none h_find (h'.trans h)

theorem obtaining_mapFile (h_find : s.find name = none) (fd : Node) :
    Obtaining resolve name s (mapFile name fd) := by
  intro t h_t
  rw [mapFile]
  refine wlp_sys (c := .fstat fd) rfl fun r t' h_t' => ?_
  cases r with
  | error x => exact Machine.wlp_abort
  | ok size =>
    refine wlp_sys (c := .mmap size fd) rfl fun r u h_u => ?_
    have h_mapped : u.mapped = s.mapped := h_u.trans (h_t'.trans h_t)
    cases r with
    | error x => exact obtaining_leave h_find u h_mapped
    | ok m =>
      -- the element is new, since nobody has put one there meanwhile
      refine Machine.wlp_call fun f => ?_
      have h_none : u.find name = none := by rw [find_eq h_mapped, h_find]
      have h_run : (Op.emplace (ι := ι) name m).run resolve u = (.ok u.addresses, u.added name m) :=
        run_emplace_new h_none m
      have h_exec : (machine resolve).exec f (.emplace name m) u
          = (.ok u.addresses, u.added name m) := by
        rcases f with _ | ⟨y | n⟩ <;> exact h_run
      rw [h_exec]
      refine wlp_leave fun v h_v => ⟨⟨u.addresses, m⟩, rfl, ?_, Or.inl h_find⟩
      rw [find_eq h_v, find_added h_none, find_eq h_mapped]

theorem obtaining_populate (h_find : s.find name = none) (result : Str) :
    Obtaining resolve name s (populate cacheDir name result) := by
  intro t h_t
  have h_none : t.find name = none := by rw [find_eq h_t, h_find]
  rw [populate]
  refine wlp_find ?_
  rw [h_none]
  refine wlp_sys (c := .unlink _) rfl fun r u h_u => ?_
  rw [store]
  refine wlp_sys (c := .create _) rfl fun r u' h_u' => ?_
  have h_mapped : u'.mapped = s.mapped := h_u'.trans (h_u.trans h_t)
  cases r with
  | error x => exact obtaining_leave h_find u' h_mapped
  | ok fd =>
    refine wlp_sys (c := .write fd result) rfl fun r v h_v => ?_
    cases r with
    | error x => exact Machine.wlp_abort
    | ok n =>
      change (machine resolve).Wlp (if n ≠ result.length then _ else _) v _
      split_ifs
      · exact Machine.wlp_abort
      refine wlp_sys (c := .rename _ _) rfl fun r v' h_v' => ?_
      cases r with
      | error x => exact Machine.wlp_abort
      | ok u => exact obtaining_mapFile h_find fd v' (h_v'.trans (h_v.trans h_mapped))

theorem obtaining_fetchFile (h_find : s.find name = none) (fetch : Option Str) :
    Obtaining resolve name s (fetchFile cacheDir i name fetch) := by
  intro t h_t
  unfold fetchFile
  refine wlp_sys (c := .unlock) rfl fun r u h_u => ?_
  have h_mapped : u.mapped = s.mapped := h_u.trans h_t
  cases r with
  | error x => exact Machine.wlp_abort
  | ok v =>
    cases fetch with
    | none => exact Machine.wlp_ret (obtains_none h_find h_mapped)
    | some result =>
      exact wlp_lock fun v h_v => obtaining_populate h_find result v (h_v.trans h_mapped)

theorem obtaining_openFile (h_find : s.find name = none) (fetch : Option Str) :
    Obtaining resolve name s (openFile cacheDir i name fetch) := by
  intro t h_t
  rw [openFile]
  refine wlp_sys (c := .open _) rfl fun r u h_u => ?_
  cases r with
  | ok fd => exact obtaining_mapFile h_find fd u (h_u.trans h_t)
  | error x =>
    change (machine resolve).Wlp (if x ≠ .ENOENT then _ else _) u _
    split_ifs
    · exact Machine.wlp_abort
    · exact obtaining_fetchFile h_find fetch u (h_u.trans h_t)

/-- **`get` and the mappings**, whatever fails. -/
theorem wlp_get (fetch : Option Str) :
    (machine resolve).Wlp (get cacheDir i name fetch) s (Obtains name s) := by
  refine wlp_lock fun t h_t => wlp_find ?_
  rcases h_find : t.find name with _ | x
  · have h_none : s.find name = none := by rw [← find_eq h_t, h_find]
    change (machine resolve).Wlp (openOrFetch cacheDir i name fetch) t _
    rw [openOrFetch]
    split_ifs
    · exact Machine.wlp_abort
    refine wlp_sys (c := .mkdir _) rfl fun r u h_u => ?_
    have h_mapped : u.mapped = s.mapped := h_u.trans h_t
    cases r with
    | ok v => exact obtaining_openFile h_none fetch u h_mapped
    | error x =>
      change (machine resolve).Wlp (if x ≠ .EEXIST then _ else _) u _
      split_ifs
      · exact obtaining_leave h_none u h_mapped
      · exact obtaining_openFile h_none fetch u h_mapped
  · exact wlp_leave fun u h_u => obtains_mapped (h_u.trans h_t) (by rw [← find_eq h_t, h_find])

end Mappings

/-! ### Sequences of calls -/

section Contract

/-- A call of a method of the cache. -/
inductive Call (ι : Type) where
  | get (i : ι) (name : Str) (fetch : Option Str) (e : Errno) (fs : List (Option Fault))
  | release (i : ι) (name : Str) (item : Option ℕ) (e : Errno)

/-- A run has returned `r`, and `s'` is the state after it. -/
def Returned {α : Type} (f : Final (sig ι) (World ι κ) Fault α) (r : α) (s' : World ι κ) : Prop :=
  f.outcome = .done r ∧ f.state = s'

/-- What `release` owes its caller. A name that is mapped and a pointer to something else are not
provided for. -/
def Releases (name : Str) (item : Option ℕ) (s : World ι κ) (r : Option Bool) (s' : World ι κ) :
    Prop :=
  match s.find name with
  | some x => item = some x.address → r = some true ∧ s'.find = Function.update s.find name none
  | none => r = some false ∧ s'.find = s.find

/-- The names that were obtained and not given back, after a `get`. -/
def obtained (held : Set Str) (name : Str) (r : Option ℕ) : Set Str :=
  if r = none then held else insert name held

/-- The same after a `release`: the name is given back with the pointer that was obtained for it. -/
def givenBack (held : Set Str) (s : World ι κ) (name : Str) (item : Option ℕ) : Set Str :=
  if item ≠ none ∧ (s.find name).map Entry.address = item then held \ {name} else held

/-- The names that are mapped. -/
def mappedNames (s : World ι κ) : Set Str :=
  {n | s.find n ≠ none}

variable (resolve cacheDir)

/-- The contract of the cache along a sequence of calls: each of them does what it should, and the
names that are mapped are those of `held`, which were obtained and not given back. -/
def Contract : List (Call ι) → Set Str → World ι κ → Prop
  | [], held, s => mappedNames s = held
  | .get i name fetch e fs :: calls, held, s =>
    mappedNames s = held ∧
      ∀ r s', Returned ((machine resolve).run (get cacheDir i name fetch) e fs s) r s' →
        Obtains name s r s' ∧ Contract calls (obtained held name r) s'
  | .release i name item e :: calls, held, s =>
    mappedNames s = held ∧
      ∃ r s', Returned ((machine resolve).run (release i name item) e [] s) r s' ∧
        Releases name item s r s' ∧ Contract calls (givenBack held s name item) s'

/-- Nothing is due from any `release` of a sequence of calls: its name is mapped, and it is given
another pointer than the one of its mapping. -/
def NothingDue : List (Call ι) → World ι κ → Prop
  | [], _ => True
  | .get i name fetch e fs :: calls, s =>
    ∀ r s', Returned ((machine resolve).run (get cacheDir i name fetch) e fs s) r s' →
      NothingDue calls s'
  | .release i name item e :: calls, s =>
    (∃ x, s.find name = some x ∧ item ≠ some x.address) ∧
      NothingDue calls ((machine resolve).run (release i name item) e [] s).state

variable {resolve cacheDir}

/-- `release` of a name that is mapped says `false` and does nothing. -/
theorem ends_release_mapped {x : Entry} (item : Option ℕ) (h_holder : s.holder = none)
    (h_find : s.find name = some x) :
    Ends resolve (release i name item) e s fun r s' => r = some false ∧ s' = s := by
  have h_run : (Op.find (ι := ι) name).run resolve { s with holder := some i }
      = (.ok (some x), { s with holder := some i }) := congrArg (fun r => (Except.ok r, _)) h_find
  refine ends_lock h_holder (ends_always h_run fun e' => ends_leave ⟨rfl, ?_⟩)
  rw [← h_holder]

/-- `release` of a name that is not mapped uses `end()`. -/
theorem ends_release_unmapped (item : Option ℕ) (h_holder : s.holder = none)
    (h_find : s.find name = none) :
    Ends resolve (release i name item) e s fun r _ => r = none := by
  have h_run : (Op.find (ι := ι) name).run resolve { s with holder := some i }
      = (.ok none, { s with holder := some i }) := congrArg (fun r => (Except.ok r, _)) h_find
  exact ends_lock h_holder (ends_always h_run fun e' => (Machine.wp_ret _ _ _).mpr rfl)

omit [DecidableEq κ] in
/-- After a `get` the names that are mapped are those that `obtained` says. -/
theorem Obtains.mappedNames {r : Option ℕ} (h : Obtains name s r s') :
    mappedNames s' = obtained (mappedNames s) name r := by
  cases r with
  | none => rw [Cache.mappedNames, h.2, obtained, if_pos rfl, Cache.mappedNames]
  | some p =>
    obtain ⟨x, -, h_find, -⟩ := h
    rw [obtained, if_neg (by simp)]
    ext n
    change s'.find n ≠ none ↔ n ∈ insert name (Cache.mappedNames s)
    rw [h_find, Set.mem_insert_iff]
    by_cases h_eq : n = name
    · simp [h_eq]
    · rw [Function.update_of_ne h_eq, or_iff_right h_eq]
      exact Iff.rfl

/-- **The contract of `release`.** It holds along a sequence of calls just if nothing is due from any
`release` in it. -/
theorem contract_iff (h_holder : s.holder = none) (calls : List (Call ι)) :
    Contract resolve cacheDir calls (mappedNames s) s ↔ NothingDue resolve cacheDir calls s := by
  induction calls generalizing s with
  | nil => exact iff_of_true rfl trivial
  | cons c calls ih =>
    cases c with
    | get i name fetch e fs =>
      rw [Contract, NothingDue, and_iff_right rfl]
      refine forall_congr' fun r => forall_congr' fun s' => imp_congr_right fun h_returned => ?_
      obtain ⟨h_done, rfl⟩ := h_returned
      have h_obtains : Obtains name s r ((machine resolve).run (get cacheDir i name fetch) e fs s).state :=
        wlp_get fetch e fs r h_done
      -- the mutex is free again, so that the next call is served
      have h_free := (proper_get none i name fetch).holder (by rw [h_holder]; rfl) h_done
      rw [and_iff_right h_obtains, ← h_obtains.mappedNames]
      exact ih h_free
    | release i name item e =>
      rw [Contract, NothingDue, and_iff_right rfl]
      rcases h_find : s.find name with _ | x
      · -- `end()` is used, although `false` is due
        obtain ⟨r, h_done, rfl⟩ : Ends resolve (release i name item) e s fun r _ => r = none :=
          ends_release_unmapped item h_holder h_find
        refine iff_of_false ?_ (by simp)
        rintro ⟨r, s', ⟨h_done', -⟩, h_due, -⟩
        rw [Releases, h_find] at h_due
        rw [h_done, h_due.1] at h_done'
        simp at h_done'
      · obtain ⟨r, h_done, rfl, h_state⟩ : Ends resolve (release i name item) e s
            fun r s' => r = some false ∧ s' = s := ends_release_mapped item h_holder h_find
        rw [h_state]
        by_cases h_item : item = some x.address
        · -- the mapping is not removed, although this is due
          refine iff_of_false ?_ (by simp [h_item])
          rintro ⟨r, s', ⟨h_done', -⟩, h_due, -⟩
          rw [Releases, h_find] at h_due
          rw [h_done, (h_due h_item).1] at h_done'
          simp at h_done'
        · -- nothing is due, and nothing happens
          have h_held : givenBack (mappedNames s) s name item = mappedNames s := by
            rw [givenBack, if_neg]
            rintro ⟨-, h_eq⟩
            rw [h_find] at h_eq
            exact h_item h_eq.symm
          rw [h_held, and_iff_right ⟨x, rfl, h_item⟩, ← ih h_holder]
          constructor
          · rintro ⟨r, s', ⟨-, h_s'⟩, -, h_rest⟩
            rwa [← h_s', h_state] at h_rest
          · intro h_rest
            refine ⟨some false, s, ⟨h_done, h_state⟩, ?_, h_rest⟩
            rw [Releases, h_find]
            exact fun h_eq => absurd h_eq h_item

/-- A cache with one mapping. -/
def oneMapping : World Unit Str :=
  ⟨none, [(str "5c7b", ⟨0, ⟨0, 1⟩⟩)], fun _ => none, fun _ => str "x", 1, 1⟩

/-- A `release` that gets another pointer than the one of the mapping. -/
theorem contract_iff_stranger :
    Contract id (str "c/") [.release () (str "5c7b") none .EINVAL] (mappedNames oneMapping)
      oneMapping :=
  (contract_iff rfl _).mpr ⟨⟨_, rfl, by simp⟩, trivial⟩

/-- `get` of an empty blob, which cannot be mapped, and what `FileElement::Release` of `git-githubfs.cc` does
then. -/
def failedOpen : List (Call Unit) :=
  [.get () (str "5c7b") (some []) .EINVAL [], .release () (str "5c7b") none .EINVAL]

/-- `Release` after an `Open` that failed goes on with `end()`. -/
theorem failedOpen_not_contract :
    ¬ Contract id (str "c/") failedOpen ∅
      (⟨none, [], fun _ => none, fun _ => [], 0, 0⟩ : World Unit Str) := by
  intro h
  -- the state after the `get`
  obtain ⟨-, -, h_release⟩ := h.2 none _ ⟨by decide +kernel, rfl⟩
  obtain ⟨r, s', ⟨h_done, -⟩, h_due, -⟩ := h_release
  have h_outcome : ((machine id).run (release () (str "5c7b") none) .EINVAL []
      ((machine id).run (get (str "c/") () (str "5c7b") (some [])) .EINVAL []
        (⟨none, [], fun _ => none, fun _ => [], 0, 0⟩ : World Unit Str)).state).outcome
      = .done none := by
    decide +kernel
  have h_find : ((machine id).run (get (str "c/") () (str "5c7b") (some [])) .EINVAL []
        (⟨none, [], fun _ => none, fun _ => [], 0, 0⟩ : World Unit Str)).state.find (str "5c7b")
      = none := by
    decide +kernel
  rw [Releases, h_find] at h_due
  rw [h_outcome, h_due.1] at h_done
  simp at h_done

end Contract

/-! ### `git-githubfs.cc` -/

section Githubfs

/-- What `Open` leaves behind for `Release`. -/
theorem wlp_githubfsOpen (h_holder : s.holder = none) (fetch : Option Str) :
    (machine resolve).Wlp (githubfsOpen cacheDir i name fetch none) s fun a t =>
      t.holder = none ∧ (a = (-5, none) ∧ t.find name = none ∨
        ∃ x : Entry, a = (0, some x.address) ∧ t.find name = some x) := by
  have h_get : (machine resolve).Wlp (get cacheDir i name fetch) s fun r t =>
      Obtains name s r t ∧ t.holder = none := fun e fs r h_done =>
    ⟨wlp_get fetch e fs r h_done,
      (proper_get none i name fetch).holder (by rw [h_holder]; rfl) h_done⟩
  refine Machine.wlp_bind fun e fs r h_done => ?_
  obtain ⟨h_obtains, h_free⟩ := h_get e fs r h_done
  cases r with
  | none =>
    obtain ⟨h_none, h_find⟩ := h_obtains
    exact Machine.wlp_ret ⟨h_free, Or.inl ⟨rfl, by rw [h_find, h_none]⟩⟩
  | some p =>
    obtain ⟨x, rfl, h_find, -⟩ := h_obtains
    exact Machine.wlp_ret ⟨h_free, Or.inr ⟨x, rfl, by rw [h_find, Function.update_self]⟩⟩

/-- **`Open` and `Release`.** After an `Open` that failed, `Release` uses `end()`; after one that
succeeded it keeps the mapping. -/
theorem githubfs_session (h_holder : s.holder = none) {fetch : Option Str} {fs : List (Option Fault)}
    {v : ℤ} {memory : Option ℕ}
    (h : Returned ((machine resolve).run (githubfsOpen cacheDir i name fetch none) e fs s)
      (v, memory) s') :
    Ends resolve (githubfsRelease i name memory) e s' fun r t =>
      match memory with
      | none => v = -5 ∧ r = none
      | some _ => v = 0 ∧ r = some false ∧ t = s' := by
  obtain ⟨h_done, rfl⟩ := h
  obtain ⟨h_free, ⟨h_eq, h_find⟩ | ⟨x, h_eq, h_find⟩⟩ := wlp_githubfsOpen h_holder fetch e fs _ h_done
  · obtain ⟨rfl, rfl⟩ := Prod.mk.inj h_eq
    exact (ends_release_unmapped none h_free h_find).mono fun r _ _ h_none => ⟨rfl, h_none⟩
  · obtain ⟨rfl, rfl⟩ := Prod.mk.inj h_eq
    exact (ends_release_mapped (some x.address) h_free h_find).mono fun r _ _ h => ⟨rfl, h⟩

end Githubfs

end GitlstreeFS.Cache
