import GitlstreeFS.Cache.Stable

/-!
# Handles of `gitlstree`

`FileElement` keeps a pointer to the entry of its blob in `memory_`. `Open`, `Read` and `Readlink` fetch it
if it is not there, and `Release` forgets it, whatever other handles there are. `handles_safe` says that a
read finds it all the same.

A call holds `buf_mutex_` from its beginning to its end, and all that it uses beside `memory_` is the cache;
so a run is given by the order of the calls.
-/

namespace GitlstreeFS.Gitlstree

open Cache

/-! ### `FileElement` -/

/-- How a call ends that does not return. -/
inductive CallFault where
  /-- `abort()` -/
  | aborted
  /-- `assert(!!memory_)` -/
  | assertion
  /-- A pointer to an entry that is gone, or a `memcpy` that leaves it. -/
  | undefined
  deriving DecidableEq, Repr

/-- What a call returns: the value, and what it has written to `target`. -/
structure Returned where
  value : ℤ
  target : Str
  deriving DecidableEq, Repr

/-- `maybe_cat_file_locked`: the value, and `memory_` behind it. `got` is what `get` returns, if it is
called. -/
def maybeCatFileLocked (got memory : Option ℕ) : Except CallFault (ℤ × Option ℕ) :=
  match memory with
  | some p => .ok (0, some p)
  | none =>
    match got with
    | some p => .ok (0, some p)
    | none => .error .aborted

/-- `FileElement::Open`. -/
def openFile (got memory : Option ℕ) : Except CallFault (Returned × Option ℕ) := do
  let (e, memory) ← maybeCatFileLocked got memory
  return (⟨e, []⟩, memory)

section Read

variable (shows : ℕ → Option Str)

/-- The bytes behind `memory_`. -/
def contentOf (memory : Option ℕ) : Except CallFault Str :=
  match memory with
  | none => .error .assertion
  | some p =>
    match shows p with
    | none => .error .undefined
    | some content => .ok content

/-- `FileElement::Read`. -/
def read (size : ℕ) (offset : ℤ) (got memory : Option ℕ) : Except CallFault (Returned × Option ℕ) := do
  -- `RELEASE` may have been called before `READ`
  let memory ← if memory = none then (maybeCatFileLocked got memory).map Prod.snd else .ok memory
  let content ← contentOf shows memory
  match readMemory content size offset with
  | none => .error .undefined
  | some bytes => return (⟨bytes.length, bytes⟩, memory)

/-- `FileElement::Readlink`. -/
def readlink (size : ℕ) (got memory : Option ℕ) : Except CallFault (Returned × Option ℕ) := do
  let (e, memory) ← maybeCatFileLocked got memory
  if e ≠ 0 then return (⟨e, []⟩, memory)
  else
    let content ← contentOf shows memory
    if content.length < size then return (⟨0, content ++ [0]⟩, memory)
    else return (⟨0, content.take size⟩, memory)

end Read

/-- `FileElement::Release`. -/
def release (_memory : Option ℕ) : Except CallFault (Returned × Option ℕ) :=
  .ok (⟨0, []⟩, none)

/-! ### Runs -/

/-- A call. All but `Readlink` come from a handle. -/
inductive HandleCall (η ε : Type) where
  | openFile (h : η)
  | read (h : η) (size : ℕ) (offset : ℤ)
  | readlink (e : ε) (size : ℕ)
  | release (h : η)

section Runs

variable {η ε : Type} (file : η → ε)

/-- The element that is called. -/
def HandleCall.element : HandleCall η ε → ε
  | .openFile h => file h
  | .read h _ _ => file h
  | .readlink e _ => e
  | .release h => file h

/-- The method that is called. -/
def HandleCall.perform (shows : ℕ → Option Str) (got memory : Option ℕ) :
    HandleCall η ε → Except CallFault (Returned × Option ℕ)
  | .openFile _ => Gitlstree.openFile got memory
  | .read _ size offset => Gitlstree.read shows size offset got memory
  | .readlink _ size => Gitlstree.readlink shows size got memory
  | .release _ => Gitlstree.release memory

/-- Whether `get` is called: there is no pointer, and the call is not `Release`. -/
def HandleCall.asks (memory : Option ℕ) : HandleCall η ε → Bool
  | .release _ => false
  | _ => memory.isNone

variable {blob : Str → Str} (cache : StableCache blob) (sha1 : ε → Str)

/-- The cache, and `memory_` of each element. -/
structure Elements (ε : Type) where
  entries : cache.State
  memory : ε → Option ℕ

/-- What `get` returns, where the call asks it, and the state of the cache behind it. -/
def Consults (s : Elements cache ε) (call : HandleCall η ε) (got : Option ℕ) (entries : cache.State) :
    Prop :=
  if call.asks (s.memory (call.element file)) then
    cache.get s.entries (sha1 (call.element file)) got entries
  else entries = s.entries

/-- The method, in a state of the cache. -/
def HandleCall.performIn (call : HandleCall η ε) (entries : cache.State) (got memory : Option ℕ) :
    Except CallFault (Returned × Option ℕ) :=
  call.perform (fun p => (cache.shows entries p).map Prod.snd) got memory

variable [DecidableEq ε]

/-- A call with its result. -/
inductive Step (s : Elements cache ε) (call : HandleCall η ε) :
    Except CallFault Returned → Elements cache ε → Prop
  | returned {got memory : Option ℕ} {entries : cache.State} {r : Returned}
      (h_get : Consults file cache sha1 s call got entries)
      (h : call.performIn cache entries got (s.memory (call.element file)) = .ok (r, memory)) :
      Step s call (.ok r) ⟨entries, Function.update s.memory (call.element file) memory⟩
  | ended {got : Option ℕ} {entries : cache.State} {x : CallFault}
      (h_get : Consults file cache sha1 s call got entries)
      (h : call.performIn cache entries got (s.memory (call.element file)) = .error x) :
      Step s call (.error x) ⟨entries, s.memory⟩

/-- The calls of a run, with what they have returned. Behind a call that does not return there are none. -/
inductive Run (s₀ : Elements cache ε) : List (HandleCall η ε × Returned) → Elements cache ε → Prop
  | nil : Run s₀ [] s₀
  | snoc {calls : List (HandleCall η ε × Returned)} {s s' : Elements cache ε} {call : HandleCall η ε}
      {r : Returned} (h : Run s₀ calls s) (h_step : Step file cache sha1 s call (.ok r) s') :
      Run s₀ (calls ++ [(call, r)]) s'

end Runs

/-! ### The methods -/

section Methods

variable {η ε : Type} {shows : ℕ → Option Str} {got memory memory' : Option ℕ} {p size : ℕ} {offset : ℤ}

/-- With a pointer, or one that is fetched, `maybe_cat_file_locked` succeeds. -/
theorem maybeCatFileLocked_eq_ok (h : (memory <|> got) = some p) :
    maybeCatFileLocked got memory = .ok (0, some p) := by
  cases memory with
  | some q =>
    obtain rfl := Option.some.inj h
    rfl
  | none =>
    obtain rfl : got = some p := h
    rfl

/-- Without, it ends the process. -/
theorem maybeCatFileLocked_aborts (h : (memory <|> got) = none) :
    maybeCatFileLocked got memory = .error .aborted := by
  cases memory with
  | some q => cases h
  | none =>
    obtain rfl : got = none := h
    rfl

/-- `Read` fetches the pointer in any case. -/
theorem read_eq :
    read shows size offset got memory = (do
      let (_, memory) ← maybeCatFileLocked got memory
      let content ← contentOf shows memory
      match readMemory content size offset with
      | none => .error .undefined
      | some bytes => return (⟨bytes.length, bytes⟩, memory)) := by
  cases memory with
  | some q => rfl
  | none =>
    cases got with
    | none => rfl
    | some q => rfl

theorem read_eq_ok {content bytes : Str} (h : (memory <|> got) = some p) (h_shows : shows p = some content)
    (h_bytes : readMemory content size offset = some bytes) :
    read shows size offset got memory = .ok (⟨bytes.length, bytes⟩, some p) := by
  have h_content : contentOf shows (some p) = .ok content := by
    rw [contentOf, h_shows]
  rw [read_eq, maybeCatFileLocked_eq_ok h]
  change (contentOf shows (some p) >>= _) = _
  rw [h_content]
  change (match readMemory content size offset with
    | none => (.error .undefined : Except CallFault (Returned × Option ℕ))
    | some bytes => .ok (⟨bytes.length, bytes⟩, some p)) = _
  rw [h_bytes]

/-- What is behind the pointer of a call: it never is null, and it is the one that the call has left. -/
theorem perform_spec {call : HandleCall η ε} (h_call : call.asks none = true) :
    ((memory <|> got) = none ∧ call.perform shows got memory = .error .aborted) ∨
      ∃ p, (memory <|> got) = some p ∧
        (call.perform shows got memory = .error .undefined ∨
          ∃ r, call.perform shows got memory = .ok (r, some p)) := by
  cases h : (memory <|> got) with
  | none =>
    -- the assertion in `maybe_cat_file_locked` ends the process, whatever the call goes on with
    have h_aborts := maybeCatFileLocked_aborts h
    refine Or.inl ⟨rfl, ?_⟩
    cases call with
    | openFile h' => rw [HandleCall.perform, openFile, h_aborts]; rfl
    | read h' size offset => rw [HandleCall.perform, read_eq, h_aborts]; rfl
    | readlink e size => rw [HandleCall.perform, readlink, h_aborts]; rfl
    | release h' => cases h_call
  | some p =>
    -- the pointer is there; the call may still find that what it points to is gone
    have h_found := maybeCatFileLocked_eq_ok h
    refine Or.inr ⟨p, rfl, ?_⟩
    cases call with
    | openFile h' => exact Or.inr ⟨⟨0, []⟩, by rw [HandleCall.perform, openFile, h_found]; rfl⟩
    | read h' size offset =>
      cases h_shows : shows p with
      | none =>
        left
        rw [HandleCall.perform, read_eq, h_found]
        change (contentOf shows (some p) >>= _) = _
        rw [contentOf, h_shows]
        rfl
      | some content =>
        cases h_bytes : readMemory content size offset with
        | some bytes => exact Or.inr ⟨_, read_eq_ok h h_shows h_bytes⟩
        | none =>
          left
          rw [HandleCall.perform, read_eq, h_found]
          change (contentOf shows (some p) >>= _) = _
          rw [contentOf, h_shows]
          change (match readMemory content size offset with
            | none => (.error .undefined : Except CallFault (Returned × Option ℕ))
            | some bytes => .ok (⟨bytes.length, bytes⟩, some p)) = _
          rw [h_bytes]
    | readlink e size =>
      cases h_shows : shows p with
      | none =>
        left
        rw [HandleCall.perform, readlink, h_found]
        change (contentOf shows (some p) >>= _) = _
        rw [contentOf, h_shows]
        rfl
      | some content =>
        right
        rw [HandleCall.perform, readlink, h_found]
        change ∃ r, (contentOf shows (some p) >>= _) = .ok (r, some p)
        rw [contentOf, h_shows]
        change ∃ r, (if content.length < size then _ else _) = _
        split_ifs
        · exact ⟨_, rfl⟩
        · exact ⟨_, rfl⟩
    | release h' => cases h_call

end Methods

/-! ### What holds in all runs -/

section Safety

variable {η ε : Type} {file : η → ε} {blob : Str → Str} {cache : StableCache blob} {sha1 : ε → Str}
  {s s₀ s' : Elements cache ε} {call : HandleCall η ε} {got : Option ℕ} {entries : cache.State}

/-- Each pointer is that of the live entry for the element. -/
def Live (sha1 : ε → Str) (s : Elements cache ε) : Prop :=
  ∀ e p, s.memory e = some p → cache.find s.entries (sha1 e) = some p

/-- What a pointer to a live entry shows. -/
theorem shows_of_find {name : Str} {p : ℕ} (h : cache.find entries name = some p) :
    (cache.shows entries p).map Prod.snd = some (blob name) := by
  rw [cache.sound entries name p h]
  rfl

/-- The cache keeps its entries. -/
theorem Consults.keeps (h : Consults file cache sha1 s call got entries) {name : Str} {p : ℕ}
    (h_found : cache.find s.entries name = some p) : cache.find entries name = some p := by
  rw [Consults] at h
  split at h
  · exact cache.get_keeps _ _ _ _ _ _ h h_found
  · rwa [h]

/-- The pointer that a call works with is that of the entry. -/
theorem Consults.found (h : Consults file cache sha1 s call got entries) (h_live : Live sha1 s)
    (h_call : call.asks none = true) {p : ℕ}
    (h_pointer : (s.memory (call.element file) <|> got) = some p) :
    cache.find entries (sha1 (call.element file)) = some p := by
  cases h_memory : s.memory (call.element file) with
  | some q =>
    rw [h_memory] at h_pointer
    obtain rfl := Option.some.inj h_pointer
    exact h.keeps (h_live _ _ h_memory)
  | none =>
    rw [h_memory] at h_pointer
    obtain rfl : got = some p := h_pointer
    rw [Consults, h_memory, if_pos h_call] at h
    exact cache.get_result _ _ _ _ h

/-- Where there is an entry for the element, a call knows its pointer. -/
theorem Consults.pointer (h : Consults file cache sha1 s call got entries) (h_live : Live sha1 s)
    (h_call : call.asks none = true) {p : ℕ}
    (h_found : cache.find s.entries (sha1 (call.element file)) = some p) :
    (s.memory (call.element file) <|> got) = some p := by
  cases h_memory : s.memory (call.element file) with
  | some q =>
    have h_q := h_live _ _ h_memory
    rw [h_found] at h_q
    exact h_q.symm
  | none =>
    rw [Consults, h_memory, if_pos h_call] at h
    exact (cache.get_found _ _ _ h_found).2 _ _ h

/-- Such a call can be made. -/
theorem exists_consults {p : ℕ}
    (h_found : cache.find s.entries (sha1 (call.element file)) = some p) :
    ∃ got entries, Consults file cache sha1 s call got entries := by
  obtain ⟨⟨entries, h_get⟩, -⟩ := cache.get_found _ _ _ h_found
  by_cases h_asks : call.asks (s.memory (call.element file)) = true
  · exact ⟨some p, entries, by rw [Consults, if_pos h_asks]; exact h_get⟩
  · exact ⟨none, s.entries, by rw [Consults, if_neg h_asks]⟩

variable [DecidableEq ε]

theorem Step.keeps {r : Except CallFault Returned} (h : Step file cache sha1 s call r s') {name : Str}
    {p : ℕ} (h_found : cache.find s.entries name = some p) : cache.find s'.entries name = some p := by
  cases h with
  | returned h_get _ => exact h_get.keeps h_found
  | ended h_get _ => exact h_get.keeps h_found

/-- A call other than `Release` that has returned has found the entry, and has left the pointer to it. -/
theorem Step.found {r : Returned} (h : Step file cache sha1 s call (.ok r) s') (h_live : Live sha1 s)
    (h_call : call.asks none = true) :
    ∃ p, s'.memory = Function.update s.memory (call.element file) (some p) ∧
      cache.find s'.entries (sha1 (call.element file)) = some p := by
  cases h with
  | returned h_get h =>
    rw [HandleCall.performIn] at h
    obtain ⟨-, h_aborts⟩ | ⟨p, h_pointer, h_undefined | ⟨v, h_ok⟩⟩ := perform_spec h_call
    · rw [h_aborts] at h
      cases h
    · rw [h_undefined] at h
      cases h
    · rw [h_ok] at h
      obtain ⟨rfl, rfl⟩ := Prod.mk.inj (Except.ok.inj h)
      exact ⟨p, rfl, h_get.found h_live h_call h_pointer⟩

/-- **The pointers stay live.** -/
theorem Step.live {r : Except CallFault Returned} (h : Step file cache sha1 s call r s')
    (h_live : Live sha1 s) : Live sha1 s' := by
  intro e p h_memory
  have h_old (h_same : s.memory e = some p) : cache.find s'.entries (sha1 e) = some p :=
    h.keeps (h_live e p h_same)
  cases r with
  | error x =>
    cases h with
    | ended h_get _ => exact h_old h_memory
  | ok v =>
    cases h_call : call.asks none with
    | true =>
      -- a call that needs the content leaves the pointer of its own element
      obtain ⟨q, h_update, h_found⟩ := h.found h_live h_call
      rw [h_update] at h_memory
      by_cases h_e : e = call.element file
      · subst h_e
        rw [Function.update_self] at h_memory
        rwa [← Option.some.inj h_memory]
      · rw [Function.update_of_ne h_e] at h_memory
        exact h_old h_memory
    | false =>
      -- only `Release` has no need of the pointer
      cases call with
      | openFile h' => cases h_call
      | read h' size offset => cases h_call
      | readlink e size => cases h_call
      | release h' =>
        cases h with
        | returned h_get h =>
          obtain ⟨-, rfl⟩ := Prod.mk.inj (Except.ok.inj h)
          -- the pointer of the released element is reset, the others stay
          by_cases h_e : e = file h'
          · subst h_e
            change Function.update s.memory (file h') none (file h') = some p at h_memory
            rw [Function.update_self] at h_memory
            cases h_memory
          · change Function.update s.memory (file h') none e = some p at h_memory
            rw [Function.update_of_ne h_e] at h_memory
            exact h_old h_memory

/-- No call reaches the assertion with a null pointer. -/
theorem Step.ne_assertion {r : Except CallFault Returned} (h : Step file cache sha1 s call r s') :
    r ≠ .error .assertion := by
  rintro rfl
  cases h with
  | ended h_get h =>
    rw [HandleCall.performIn] at h
    cases h_call : call.asks none with
    | true =>
      obtain ⟨-, h_aborts⟩ | ⟨p, h_pointer, h_undefined | ⟨v, h_ok⟩⟩ := perform_spec h_call
      · rw [h_aborts] at h
        cases h
      · rw [h_undefined] at h
        cases h
      · rw [h_ok] at h
        cases h
    | false =>
      cases call with
      | openFile h' => cases h_call
      | read h' size offset => cases h_call
      | readlink e size => cases h_call
      | release h' => cases h

/-- **A read of an element whose entry is there** returns the slice. -/
theorem read_of_found (h_live : Live sha1 s) {h : η} {p size offset : ℕ}
    (h_found : cache.find s.entries (sha1 (file h)) = some p)
    (h_size : offset + size < 0x10000000000000000) :
    (∃ r s', Step file cache sha1 s (.read h size offset) r s') ∧
      ∀ r s', Step file cache sha1 s (.read h size offset) r s' →
        r = .ok ⟨(slice (blob (sha1 (file h))) size offset).length,
          slice (blob (sha1 (file h))) size offset⟩ := by
  have h_read {got : Option ℕ} {entries : cache.State}
      (h_get : Consults file cache sha1 s (.read h size offset) got entries) :
      (HandleCall.read (ε := ε) h size offset).performIn cache entries got (s.memory (file h)) =
        .ok (⟨(slice (blob (sha1 (file h))) size offset).length,
          slice (blob (sha1 (file h))) size offset⟩, some p) :=
    read_eq_ok (h_get.pointer h_live rfl h_found) (shows_of_find (h_get.keeps h_found))
      (readMemory_eq h_size)
  constructor
  · obtain ⟨got, entries, h_get⟩ : ∃ got entries,
        Consults file cache sha1 s (.read h size offset) got entries := exists_consults h_found
    exact ⟨_, _, .returned h_get (h_read h_get)⟩
  · intro r s' h_step
    cases h_step with
    | returned h_get h =>
      rw [HandleCall.element, h_read h_get] at h
      rw [(Prod.mk.inj (Except.ok.inj h)).1]
    | ended h_get h =>
      rw [HandleCall.element, h_read h_get] at h
      cases h

theorem Run.live {calls : List (HandleCall η ε × Returned)} (h : Run file cache sha1 s₀ calls s)
    (h_live : Live sha1 s₀) : Live sha1 s := by
  induction h with
  | nil => exact h_live
  | snoc h h_step ih => exact h_step.live ih

/-- The entry of an element that has been opened is there ever after. -/
theorem Run.opened {calls : List (HandleCall η ε × Returned)} (h : Run file cache sha1 s₀ calls s)
    (h_live : Live sha1 s₀) {h' : η} {r : Returned} (h_open : (.openFile h', r) ∈ calls) :
    ∃ p, cache.find s.entries (sha1 (file h')) = some p := by
  induction h with
  | nil => cases h_open
  | snoc h h_step ih =>
    obtain h_before | h_last := List.mem_append.mp h_open
    · obtain ⟨p, h_found⟩ := ih h_before
      exact ⟨p, h_step.keeps h_found⟩
    · obtain ⟨rfl, rfl⟩ := Prod.mk.inj (List.mem_singleton.mp h_last)
      obtain ⟨p, -, h_found⟩ := h_step.found (h.live h_live) rfl
      exact ⟨p, h_found⟩

/-- **Handles are safe.** In every state that calls of any handles reach, every pointer is that of the live
entry for the SHA-1 of its element, no call reaches the assertion with a null pointer, and a read by a
handle whose `Open` has succeeded returns the slice of the blob. -/
theorem handles_safe {calls : List (HandleCall η ε × Returned)}
    (h_run : Run file cache sha1 ⟨entries, fun _ => none⟩ calls s) :
    (∀ e p, s.memory e = some p →
      cache.find s.entries (sha1 e) = some p ∧
        cache.shows s.entries p = some (sha1 e, blob (sha1 e))) ∧
    (∀ call r s', Step file cache sha1 s call r s' → r ≠ .error .assertion) ∧
    ∀ h r (size offset : ℕ), (.openFile h, r) ∈ calls → offset + size < 0x10000000000000000 →
      (∃ r s', Step file cache sha1 s (.read h size offset) r s') ∧
        ∀ r s', Step file cache sha1 s (.read h size offset) r s' →
          r = .ok ⟨(slice (blob (sha1 (file h))) size offset).length,
            slice (blob (sha1 (file h))) size offset⟩ := by
  have h_null : Live sha1 (⟨entries, fun _ => none⟩ : Elements cache ε) := by
    rintro e p ⟨⟩
  have h_live := h_run.live h_null
  refine ⟨fun e p h_memory => ?_, fun call r s' h_step => h_step.ne_assertion,
    fun h r size offset h_open h_size => ?_⟩
  · have h_found := h_live e p h_memory
    exact ⟨h_found, cache.sound _ _ _ h_found⟩
  · obtain ⟨p, h_found⟩ := h_run.opened h_null h_open
    exact read_of_found h_live h_found h_size

/-- Two files with the same blob. -/
def smallElements (entries : smallCache.State) (memory : Option ℕ) : Elements smallCache Bool :=
  ⟨entries, Function.update (fun _ => none) true memory⟩

/-- One of them is opened and released, and read then. -/
theorem handles_safe_released :
    ∃ entries, ∀ r s', Step id smallCache (fun _ => List.replicate 40 0x61) (smallElements entries none)
      (.read true 1 1) r s' → r = .ok ⟨1, str "b"⟩ := by
  obtain ⟨entries, h_get⟩ := smallCache_get
  have h_open : Step id smallCache (fun _ => List.replicate 40 0x61)
      (⟨⟨smallWorld, idle_smallWorld⟩, fun _ => none⟩ : Elements smallCache Bool) (.openFile true)
      (.ok ⟨0, []⟩) (smallElements entries (some 0)) :=
    .returned (show Consults _ _ _ _ _ (some 0) _ from h_get) rfl
  have h_release : Step id smallCache (fun _ => List.replicate 40 0x61) (smallElements entries (some 0))
      (.release true) (.ok ⟨0, []⟩)
      ⟨entries, Function.update (smallElements entries (some 0)).memory true none⟩ :=
    .returned (show Consults _ _ _ _ _ none _ from rfl) rfl
  rw [show Function.update (smallElements entries (some 0)).memory true none =
    (smallElements entries none).memory from Function.update_idem _ _ _] at h_release
  exact ⟨entries, ((handles_safe ((Run.nil.snoc h_open).snoc h_release)).2.2 true ⟨0, []⟩ 1 1 (by simp)
    (by decide)).2⟩

end Safety

end GitlstreeFS.Gitlstree
