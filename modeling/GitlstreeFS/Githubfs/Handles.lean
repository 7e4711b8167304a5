import GitlstreeFS.Cache.Stable
import GitlstreeFS.Cpp

/-!
# Handles of `githubfs`

All handles of a file share one `FileElement`, and it has one `memory_`. `Open` fetches it, `Release` forgets
it, and `Read` fails where it is not there. `read_served_iff` says which reads get the content: those before
which, of all handles of the file, the last `open` or `release` has been an `open`.

A callback holds `buf_mutex_` as long as it uses `memory_`; so a run is given by the order of the callbacks.
Every fetch succeeds.
-/

namespace GitlstreeFS.Githubfs

open Cache

/-! ### `FileElement` -/

/-- `maybe_cat_file_locked`: the value, and `memory_` behind it. `got` is what `get` returns, if it is
called. -/
def maybeCatFileLocked (got memory : Option ℕ) : ℤ × Option ℕ :=
  match memory with
  | some p => (0, some p)
  | none =>
    match got with
    | some p => (0, some p)
    | none => (-5, none)

/-- The object is looked up only if it is not there. -/
theorem maybeCatFileLocked_eq {got memory : Option ℕ} {p : ℕ} (h : (memory <|> got) = some p) :
    maybeCatFileLocked got memory = (0, some p) := by
  cases memory with
  | some q => exact congrArg (fun o => ((0 : ℤ), o)) h
  | none =>
    obtain rfl : got = some p := h
    rfl

/-- `FileElement::Open`. -/
def openFile (got memory : Option ℕ) : ℤ × Option ℕ :=
  maybeCatFileLocked got memory

/-- `FileElement::Read`: the value, and what it has written to `target`. `none` is undefined behaviour. -/
def read (shows : ℕ → Option Str) (size : ℕ) (offset : ℤ) (memory : Option ℕ) : Option (ℤ × Str) :=
  match memory with
  | none => some (-1, [])
  | some p => do
    let content ← shows p
    let bytes ← readMemory content size offset
    return (bytes.length, bytes)

/-- `FileElement::Readlink`: the value, what it has written to `target`, and `memory_` behind it. `none` is
undefined behaviour. -/
def readlink (shows : ℕ → Option Str) (size : ℕ) (got memory : Option ℕ) :
    Option ((ℤ × Str) × Option ℕ) :=
  match maybeCatFileLocked got memory with
  | (e, memory) =>
    if e ≠ 0 then some ((e, []), memory)
    else do
      -- nothing is mapped although the errno is zero: a null pointer
      let p ← memory
      let content ← shows p
      return ((0, if content.length < size then content ++ [0] else content.take size), memory)

/-- `FileElement::Release`, behind the call of `release`. -/
def release (_memory : Option ℕ) : ℤ × Option ℕ :=
  (0, none)

/-! ### The callbacks of `git_adapter.cc` -/

/-- `fs_open`. It ignores the value of `Open`. -/
def fsOpen (got memory : Option ℕ) : ℤ × Option ℕ :=
  (0, (openFile got memory).2)

/-- `fs_read`. -/
def fsRead (shows : ℕ → Option Str) (size : ℕ) (offset : ℤ) (memory : Option ℕ) : Option (ℤ × Str) :=
  (read shows size offset memory).map fun r => (toInt r.1, r.2)

/-- `fs_release`. -/
def fsRelease (memory : Option ℕ) : ℤ × Option ℕ :=
  release memory

/-- A callback for a handle of the file. -/
inductive Callback (η : Type) where
  | openFile (h : η)
  | read (h : η) (size offset : ℕ)
  | release (h : η)

section Callbacks

variable {η : Type} [DecidableEq η]

/-- The handle is open behind the callbacks. -/
def isOpen (h : η) (calls : List (Callback η)) : Bool :=
  calls.foldl (fun b call =>
    match call with
    | .openFile h' => b || h' = h
    | .read _ _ _ => b
    | .release h' => b && h' ≠ h) false

omit [DecidableEq η] in
/-- The last `open` or `release`, of any handle, is an `open`. -/
def lastOpens (calls : List (Callback η)) : Bool :=
  calls.foldl (fun b call =>
    match call with
    | .openFile _ => true
    | .read _ _ _ => b
    | .release _ => false) false

/-- What the kernel sends: a handle is opened, then read, then released. The size is an `int`, and the
offset a nonnegative `off_t`. -/
def Permitted (calls : List (Callback η)) : Callback η → Prop
  | .openFile h => isOpen h calls = false
  | .read h size offset => isOpen h calls = true ∧ size < 0x80000000 ∧ offset < 0x8000000000000000
  | .release h => isOpen h calls = true

instance (calls : List (Callback η)) (call : Callback η) : Decidable (Permitted calls call) :=
  match call with
  | .openFile _ => inferInstanceAs (Decidable (_ = _))
  | .read _ _ _ => inferInstanceAs (Decidable (_ ∧ _))
  | .release _ => inferInstanceAs (Decidable (_ = _))

end Callbacks

/-! ### Runs -/

section Runs

variable {η : Type} {blob : Str → Str} (cache : StableCache blob) (sha1 : Str)

/-- The cache, and `memory_` of the file. -/
structure Element where
  entries : cache.State
  memory : Option ℕ

/-- A callback, with the value and what it has written. -/
inductive Step (s : Element cache) : Callback η → Option (ℤ × Str) → Element cache → Prop
  /-- There is a pointer already. -/
  | openKept {h : η} {p : ℕ} (h_memory : s.memory = some p) :
      Step s (.openFile h) (some ((fsOpen none s.memory).1, [])) ⟨s.entries, (fsOpen none s.memory).2⟩
  | openFetched {h : η} {p : ℕ} {entries : cache.State} (h_memory : s.memory = none)
      (h_get : cache.get s.entries sha1 (some p) entries) :
      Step s (.openFile h) (some ((fsOpen (some p) s.memory).1, []))
        ⟨entries, (fsOpen (some p) s.memory).2⟩
  | read {h : η} {size offset : ℕ} :
      Step s (.read h size offset)
        (fsRead (fun p => (cache.shows s.entries p).map Prod.snd) size offset s.memory) s
  | release {h : η} {entries : cache.State} (h_release : cache.release s.entries sha1 s.memory entries) :
      Step s (.release h) (some ((fsRelease s.memory).1, [])) ⟨entries, (fsRelease s.memory).2⟩

variable [DecidableEq η]

/-- A run from a state in which no handle is open. -/
inductive Run (s₀ : Element cache) : List (Callback η × Option (ℤ × Str)) → Element cache → Prop
  | nil : Run s₀ [] s₀
  | snoc {calls : List (Callback η × Option (ℤ × Str))} {s s' : Element cache} {call : Callback η}
      {r : Option (ℤ × Str)} (h : Run s₀ calls s) (h_call : Permitted (calls.map Prod.fst) call)
      (h_step : Step cache sha1 s call r s') : Run s₀ (calls ++ [(call, r)]) s'

end Runs

/-! ### Which reads are served -/

section Served

variable {η : Type} {blob : Str → Str} {cache : StableCache blob} {sha1 : Str} {s s₀ s' : Element cache}
  {calls : List (Callback η)} {call : Callback η} {r : Option (ℤ × Str)}

@[simp] theorem lastOpens_open (h : η) : lastOpens (calls ++ [.openFile h]) = true := by
  rw [lastOpens, List.foldl_concat]

@[simp] theorem lastOpens_read (h : η) (size offset : ℕ) :
    lastOpens (calls ++ [.read h size offset]) = lastOpens calls := by
  rw [lastOpens, List.foldl_concat]
  rfl

@[simp] theorem lastOpens_release (h : η) : lastOpens (calls ++ [.release h]) = false := by
  rw [lastOpens, List.foldl_concat]

/-- The pointer is that of the live entry, and it is there just if the last of the callbacks that change it
is an `open`. -/
structure Linked (sha1 : Str) (calls : List (Callback η)) (s : Element cache) : Prop where
  live : ∀ p, s.memory = some p → cache.find s.entries sha1 = some p
  isSome : s.memory.isSome = lastOpens calls

/-- What a callback does to the pointer. -/
theorem Step.linked (h : Step cache sha1 s call r s') (h_linked : Linked sha1 calls s) :
    Linked sha1 (calls ++ [call]) s' := by
  cases h with
  | openKept h_memory =>
    rw [h_memory]
    refine ⟨?_, (lastOpens_open _).symm⟩
    rintro q ⟨⟩
    exact h_linked.live _ h_memory
  | openFetched h_memory h_get =>
    rw [h_memory]
    refine ⟨?_, (lastOpens_open _).symm⟩
    rintro q ⟨⟩
    exact cache.get_result _ _ _ _ h_get
  | read => exact ⟨h_linked.live, by rw [h_linked.isSome, lastOpens_read]⟩
  | release _ =>
    refine ⟨?_, (lastOpens_release _).symm⟩
    rintro q ⟨⟩

/-- What a read returns. -/
theorem Step.read_eq {h : η} {size offset : ℕ} (h_step : Step cache sha1 s (.read h size offset) r s')
    (h_linked : Linked sha1 calls s) (h_call : size < 0x80000000 ∧ offset < 0x8000000000000000) :
    r = if lastOpens calls then some (((slice (blob sha1) size offset).length : ℤ), slice (blob sha1) size offset)
      else some (-1, []) := by
  rw [← h_linked.isSome]
  cases h_step with
  | read =>
    cases h_memory : s.memory with
    | none => rfl
    | some p =>
      have h_shows : (cache.shows s.entries p).map Prod.snd = some (blob sha1) := by
        rw [cache.sound _ _ _ (h_linked.live p h_memory)]
        rfl
      have h_length : (slice (blob sha1) size offset).length ≤ size := List.length_take_le _ _
      have h_fits : Fits (slice (blob sha1) size offset).length := ⟨by omega, by omega⟩
      rw [fsRead, Githubfs.read, h_shows]
      change Option.map _ ((readMemory (blob sha1) size offset).bind _) = _
      rw [readMemory_eq (by omega)]
      change some (toInt _, _) = _
      rw [toInt_of_fits h_fits]
      rfl

variable [DecidableEq η]

theorem Run.linked {calls : List (Callback η × Option (ℤ × Str))} {s : Element cache}
    (h : Run cache sha1 s₀ calls s) (h_null : s₀.memory = none) : Linked sha1 (calls.map Prod.fst) s := by
  induction h with
  | nil =>
    refine ⟨?_, by rw [h_null]; rfl⟩
    rw [h_null]
    rintro q ⟨⟩
  | snoc h h_call h_step ih =>
    rw [List.map_append]
    exact h_step.linked ih

/-- A callback in a run. -/
theorem Run.step {before after : List (Callback η × Option (ℤ × Str))}
    (h : Run cache sha1 s₀ (before ++ (call, r) :: after) s) :
    ∃ s₁ s₂, Run cache sha1 s₀ before s₁ ∧ Permitted (before.map Prod.fst) call ∧
      Step cache sha1 s₁ call r s₂ := by
  generalize h_calls : before ++ (call, r) :: after = calls at h
  induction h generalizing after with
  | nil => simp at h_calls
  | @snoc calls s₁ s₂ call' r' h h_call h_step ih =>
    rcases List.eq_nil_or_concat after with rfl | ⟨after', last, rfl⟩
    · obtain ⟨rfl, h_last⟩ := List.append_inj' h_calls rfl
      obtain ⟨rfl, rfl⟩ := Prod.mk.inj (List.singleton_inj.mp h_last)
      exact ⟨s₁, s₂, h, h_call, h_step⟩
    · have h_split : (before ++ (call, r) :: after') ++ [last] = calls ++ [(call', r')] := by
        rw [← h_calls, List.append_assoc, List.cons_append, List.concat_eq_append]
      exact ih (List.append_inj' h_split rfl).1

/-- **Which reads are served.** A read by an open handle returns the slice of the blob just if the last
`open` or `release` before it, of whichever handle, is an `open`. -/
theorem read_served_iff {entries : cache.State} {before after : List (Callback η × Option (ℤ × Str))}
    {h : η} {size offset : ℕ}
    (h_run : Run cache sha1 ⟨entries, none⟩ (before ++ (.read h size offset, r) :: after) s) :
    r = some (((slice (blob sha1) size offset).length : ℤ), slice (blob sha1) size offset) ↔
      lastOpens (before.map Prod.fst) = true := by
  obtain ⟨s₁, s₂, h_before, ⟨-, h_call⟩, h_step⟩ := h_run.step
  rw [h_step.read_eq (h_before.linked rfl) h_call]
  cases lastOpens (before.map Prod.fst) with
  | true => exact iff_of_true rfl rfl
  | false => simp

/-- A handle is opened, and read. -/
theorem read_served_iff_opened :
    ∃ r s, Run smallCache (List.replicate 40 0x61) ⟨⟨smallWorld, idle_smallWorld⟩, none⟩
        [(.openFile true, some (0, [])), (.read true 1 1, r)] s ∧ r = some (1, str "b") := by
  obtain ⟨entries, h_get⟩ := smallCache_get
  have h_open := Run.nil.snoc (show Permitted [] (.openFile true) by decide)
    (Step.openFetched (h := true) (s := ⟨_, none⟩) rfl h_get)
  have h_read : Run smallCache _ _ ([(.openFile true, some (0, []))] ++ (.read true 1 1, _) :: []) _ :=
    h_open.snoc (show Permitted [.openFile true] (.read true 1 1) by decide) .read
  exact ⟨_, _, h_read, (read_served_iff h_read).mpr rfl⟩

/-- Two handles are opened, and the first is released. -/
def otherReleased : List (Callback Bool × Option (ℤ × Str)) :=
  [(.openFile false, some (0, [])), (.openFile true, some (0, [])), (.release false, some (0, []))]

theorem otherReleased_run :
    ∃ s, Run smallCache (List.replicate 40 0x61) ⟨⟨smallWorld, idle_smallWorld⟩, none⟩
        (otherReleased ++ [(.read true 1 1, some (-1, []))]) s := by
  obtain ⟨entries, h_get⟩ := smallCache_get
  obtain ⟨entries', h_release⟩ :=
    smallCache.release_found _ _ (some 0) _ (smallCache.get_result _ _ _ _ h_get)
  have h_first := Run.nil.snoc (show Permitted [] (.openFile false) by decide)
    (Step.openFetched (h := false) (s := ⟨_, none⟩) rfl h_get)
  have h_second := h_first.snoc (show Permitted [.openFile false] (.openFile true) by decide)
    (Step.openKept (h := true) rfl)
  have h_released := h_second.snoc
    (show Permitted [.openFile false, .openFile true] (.release false) by decide) (.release h_release)
  exact ⟨_, h_released.snoc (show Permitted [.openFile false, .openFile true, .release false]
    (.read true 1 1) by decide) .read⟩

/-- The second cannot be read. -/
theorem otherReleased_not_served :
    ¬ ∀ (before after : List (Callback Bool × Option (ℤ × Str))) (h : Bool) (size offset : ℕ)
        (r : Option (ℤ × Str)) (s : Element smallCache),
      Run smallCache (List.replicate 40 0x61) ⟨⟨smallWorld, idle_smallWorld⟩, none⟩
          (before ++ (.read h size offset, r) :: after) s →
        r = some (((slice (str "abc") size offset).length : ℤ), slice (str "abc") size offset) := by
  intro h_claim
  obtain ⟨s, h_run⟩ := otherReleased_run
  have h_read := h_claim otherReleased [] true 1 1 (some (-1, [])) s h_run
  exact absurd h_read (by decide)

end Served

end GitlstreeFS.Githubfs
