import GitlstreeFS.Cache.Model
import GitlstreeFS.Effect.RelyGuarantee

/-!
# Threads that call `get` at once

Each thread is one call of `Cache::get`, on a name of 40 hex digits; a thread that goes on with
another call counts as another one. They interleave at every call of the machine, and any system
call may fail at any time (a failed assertion ends the thread that makes it, and leaves the mutex
taken for ever, as the end of the process does).

`rely` and `guarantee` say what the mutex is for: while a thread holds it nobody else changes
anything, and a thread that does not hold it changes nothing but the mutex. What every section of
`get` keeps is `Inv`: a cache file is absent or has the content of its name, and so has every mapping.
-/

namespace GitlstreeFS.Cache

open Effect Relation
open Posix (Errno)

/-- A name of 40 hexadecimal digits. -/
def IsHash (name : Str) : Prop :=
  name.length = 40 ∧ ∀ b ∈ name, ∃ d ∈ digitValue b, d < 16

/-! ### Paths -/

section Paths

variable (cacheDir : Str)

/-- The paths that `get` forms from a hash. -/
inductive CachePath : Str → Prop
  | directory {name} (h : IsHash name) : CachePath (getFileName cacheDir name).1
  | file {name} (h : IsHash name) : CachePath (cacheFilePath cacheDir name)
  | temporary {name} (h : IsHash name) : CachePath (temporary cacheDir name)

variable {cacheDir} {name name' : Str}

theorem length_directory (h : IsHash name) :
    (getFileName cacheDir name).1.length = cacheDir.length + 2 := by
  have h_len := h.1
  simp [getFileName, h_len]

theorem length_cacheFilePath (h : IsHash name) :
    (cacheFilePath cacheDir name).length = cacheDir.length + 41 := by
  have h_len := h.1
  simp [cacheFilePath, getFileName, h_len]

theorem length_temporary (h : IsHash name) :
    (temporary cacheDir name).length = cacheDir.length + 45 := by
  rw [temporary, List.length_append, length_cacheFilePath h]
  rfl

theorem cacheFilePath_inj (h : IsHash name) (h' : IsHash name')
    (h_eq : cacheFilePath cacheDir name = cacheFilePath cacheDir name') : name = name' := by
  have h_len := h.1
  have h_len' := h'.1
  simp only [cacheFilePath, getFileName, List.append_assoc, List.append_cancel_left_eq] at h_eq
  obtain ⟨h_take, h_drop⟩ := List.append_inj h_eq (by simp [h_len, h_len'])
  rw [← List.take_append_drop 2 name, ← List.take_append_drop 2 name', h_take,
    (List.cons.inj h_drop).2]

end Paths

/-! ### The invariant -/

section Invariant

variable {ι κ : Type} (resolve : Str → κ) (cacheDir : Str) (blob : Str → Str)

/-- Different paths that `get` forms lead to different places. -/
def Separate : Prop :=
  ∀ p q, CachePath cacheDir p → CachePath cacheDir q → resolve p = resolve q → p = q

/-- The cache file of a name is absent, or has the content `blob name`. -/
def FileOk (s : World ι κ) (name : Str) : Prop :=
  s.node (resolve (cacheFilePath cacheDir name)) = none ∨
    ∃ j, s.node (resolve (cacheFilePath cacheDir name)) = some (.file j) ∧ j < s.inodes ∧
      s.content j = blob name

/-- A mapping shows the content of its name. -/
structure EntryOk (s : World ι κ) (name : Str) (e : Entry) : Prop where
  hash : IsHash name
  address : e.address < s.addresses
  inode : e.memory.inode < s.inodes
  size : e.memory.size = (blob name).length
  content : s.content e.memory.inode = blob name

structure Inv (s : World ι κ) : Prop where
  file : ∀ name, IsHash name → FileOk resolve cacheDir blob s name
  entry : ∀ name e, (name, e) ∈ s.mapped → EntryOk blob s name e
  names : (s.mapped.map Prod.fst).Nodup
  addresses : (s.mapped.map fun m => m.2.address).Nodup

/-- A step of the thread `i`. -/
structure guarantee (i : ι) (s s' : World ι κ) : Prop where
  /-- Somebody else holds the mutex. -/
  other : s.holder ≠ none → s.holder ≠ some i → s' = s
  /-- Nobody holds it. -/
  free : s.holder = none → s' = s ∨ s' = { s with holder := some i }
  own : s.holder = some i → s'.holder = some i ∨ s'.holder = none
  inv : Inv resolve cacheDir blob s → Inv resolve cacheDir blob s'
  mapped : s.mapped <+: s'.mapped

/-- A step of another thread than `i`. -/
structure rely (i : ι) (s s' : World ι κ) : Prop where
  own : s.holder = some i → s' = s
  other : s.holder ≠ some i → s'.holder ≠ some i
  inv : Inv resolve cacheDir blob s → Inv resolve cacheDir blob s'
  mapped : s.mapped <+: s'.mapped

variable {resolve cacheDir blob} {i j : ι} {s s' : World ι κ}

theorem guarantee_refl (i : ι) (s : World ι κ) : guarantee resolve cacheDir blob i s s :=
  ⟨fun _ _ => rfl, fun _ => Or.inl rfl, fun h => Or.inl h, id, List.prefix_refl _⟩

theorem rely_of_guarantee (h_ne : i ≠ j) (h : guarantee resolve cacheDir blob i s s') :
    rely resolve cacheDir blob j s s' := by
  refine ⟨fun h_own => ?_, fun h_other h_own => ?_, h.inv, h.mapped⟩
  · exact h.other (by rw [h_own]; simp) (by rw [h_own]; simpa using h_ne.symm)
  · -- only `i` can have taken the mutex
    by_cases h_none : s.holder = none
    · rcases h.free h_none with rfl | rfl
      · rw [h_none] at h_own
        simp at h_own
      · exact h_ne (Option.some.inj h_own)
    by_cases h_i : s.holder = some i
    · rcases h.own h_i with h' | h'
      · exact h_ne (Option.some.inj (h'.symm.trans h_own))
      · rw [h'] at h_own
        simp at h_own
    · exact h_other (h.other h_none h_i ▸ h_own)

/-- A step of the thread that holds the mutex. -/
theorem guarantee_of_held (h : s.holder = some i) (h' : s'.holder = some i ∨ s'.holder = none)
    (h_inv : Inv resolve cacheDir blob s → Inv resolve cacheDir blob s')
    (h_mapped : s.mapped <+: s'.mapped) : guarantee resolve cacheDir blob i s s' := by
  refine ⟨fun _ h_other => absurd h h_other, fun h_none => ?_, fun _ => h', h_inv, h_mapped⟩
  rw [h] at h_none
  simp at h_none

/-- The mutex does not matter to the invariant. -/
theorem inv_holder (h : Inv resolve cacheDir blob s) (o : Option ι) :
    Inv resolve cacheDir blob { s with holder := o } :=
  ⟨h.file, fun name e he => ⟨(h.entry name e he).hash, (h.entry name e he).address,
    (h.entry name e he).inode, (h.entry name e he).size, (h.entry name e he).content⟩,
    h.names, h.addresses⟩

/-- Nothing that counts refers to the inode `j`. -/
structure Unused (resolve : Str → κ) (cacheDir : Str) (s : World ι κ) (j : ℕ) : Prop where
  entry : ∀ m ∈ s.mapped, m.2.memory.inode ≠ j
  file : ∀ name, IsHash name → s.node (resolve (cacheFilePath cacheDir name)) ≠ some (.file j)

/-- A file that nothing refers to may have any content. -/
theorem inv_setContent (h : Inv resolve cacheDir blob s) {j : ℕ}
    (h_unused : Unused resolve cacheDir s j) (data : Str) :
    Inv resolve cacheDir blob (s.setContent j data) := by
  refine ⟨fun name h_hash => ?_, fun name e he => ?_, h.names, h.addresses⟩
  · rcases h.file name h_hash with h_none | ⟨k, h_node, h_lt, h_content⟩
    · exact Or.inl h_none
    · refine Or.inr ⟨k, h_node, h_lt, ?_⟩
      have h_ne : k ≠ j := by
        rintro rfl
        exact h_unused.file name h_hash h_node
      exact (s.setContent_of_ne data h_ne).trans h_content
  · have h_e := h.entry name e he
    have h_ne : e.memory.inode ≠ j := h_unused.entry _ he
    exact ⟨h_e.hash, h_e.address, h_e.inode, h_e.size,
      (s.setContent_of_ne data h_ne).trans h_e.content⟩

theorem inv_inodes (h : Inv resolve cacheDir blob s) {n : ℕ} (hn : s.inodes ≤ n) :
    Inv resolve cacheDir blob { s with inodes := n } := by
  refine ⟨fun name h_hash => ?_, fun name e he => ?_, h.names, h.addresses⟩
  · rcases h.file name h_hash with h_none | ⟨k, h_node, h_lt, h_content⟩
    · exact Or.inl h_none
    · exact Or.inr ⟨k, h_node, Nat.lt_of_lt_of_le h_lt hn, h_content⟩
  · have h_e := h.entry name e he
    exact ⟨h_e.hash, h_e.address, Nat.lt_of_lt_of_le h_e.inode hn, h_e.size, h_e.content⟩

/-- An inode that was never used is not referred to. -/
theorem unused_inodes (h : Inv resolve cacheDir blob s) : Unused resolve cacheDir s s.inodes := by
  refine ⟨fun m hm => Nat.ne_of_lt (h.entry m.1 m.2 hm).inode, fun name h_hash h_node => ?_⟩
  rcases h.file name h_hash with h_none | ⟨k, h_node', h_lt, -⟩
  · rw [h_none] at h_node
    simp at h_node
  · rw [h_node'] at h_node
    simp only [Option.some.injEq, Node.file.injEq] at h_node
    omega

theorem inv_emplace (h : Inv resolve cacheDir blob s) {name : Str} {m : Memory}
    (h_hash : IsHash name) (h_new : s.find name = none) (h_lt : m.inode < s.inodes)
    (h_size : m.size = (blob name).length) (h_content : s.content m.inode = blob name) :
    Inv resolve cacheDir blob (s.added name m) := by
  have h_name : name ∉ s.mapped.map Prod.fst := by
    intro h_mem
    obtain ⟨m', h_m', rfl⟩ := List.mem_map.mp h_mem
    unfold World.find at h_new
    rw [Option.map_eq_none_iff, List.find?_eq_none] at h_new
    exact h_new m' h_m' (by simp)
  have h_address : s.addresses ∉ s.mapped.map fun m => m.2.address := by
    intro h_mem
    obtain ⟨m', h_m', h_eq⟩ := List.mem_map.mp h_mem
    exact Nat.ne_of_lt (h.entry m'.1 m'.2 h_m').address h_eq
  refine ⟨h.file, fun name' e he => ?_, ?_, ?_⟩
  · rcases List.mem_append.mp he with he | he
    · have h_e := h.entry name' e he
      exact ⟨h_e.hash, Nat.lt_succ_of_lt h_e.address, h_e.inode, h_e.size, h_e.content⟩
    · obtain ⟨rfl, rfl⟩ := Prod.mk.inj (List.mem_singleton.mp he)
      exact ⟨h_hash, Nat.lt_succ_self _, h_lt, h_size, h_content⟩
  · rw [World.added, List.map_append, List.nodup_append]
    exact ⟨h.names, by simp, fun a ha b hb h_eq => h_name (by simp_all)⟩
  · rw [World.added, List.map_append, List.nodup_append]
    exact ⟨h.addresses, by simp, fun a ha b hb h_eq => h_address (by simp_all)⟩

theorem file_ne_directory (h_resolve : Separate resolve cacheDir) {name : Str} (h : IsHash name) :
    ∀ name', IsHash name' →
      resolve (cacheFilePath cacheDir name') ≠ resolve (getFileName cacheDir name).1 := by
  intro name' h' h_key
  have h_len := congrArg List.length (h_resolve _ _ (.file h') (.directory h) h_key)
  rw [length_cacheFilePath h', length_directory h] at h_len
  omega

theorem file_ne_temporary (h_resolve : Separate resolve cacheDir) {name : Str} (h : IsHash name) :
    ∀ name', IsHash name' →
      resolve (cacheFilePath cacheDir name') ≠ resolve (temporary cacheDir name) := by
  intro name' h' h_key
  have h_len := congrArg List.length (h_resolve _ _ (.file h') (.temporary h) h_key)
  rw [length_cacheFilePath h', length_temporary h] at h_len
  omega

variable [DecidableEq κ]

/-- What is done at a place that no cache file has. -/
theorem inv_setNode (h : Inv resolve cacheDir blob s) {k : κ}
    (hk : ∀ name, IsHash name → resolve (cacheFilePath cacheDir name) ≠ k) (nd : Option Node) :
    Inv resolve cacheDir blob (s.setNode k nd) := by
  refine ⟨fun name h_hash => ?_, fun name e he => ?_, h.names, h.addresses⟩
  · have h_node : (s.setNode k nd).node (resolve (cacheFilePath cacheDir name))
        = s.node (resolve (cacheFilePath cacheDir name)) :=
      s.setNode_of_ne nd (hk name h_hash)
    rcases h.file name h_hash with h_none | ⟨j, h_j, h_lt, h_content⟩
    · exact Or.inl (h_node.trans h_none)
    · exact Or.inr ⟨j, h_node.trans h_j, h_lt, h_content⟩
  · have h_e := h.entry name e he
    exact ⟨h_e.hash, h_e.address, h_e.inode, h_e.size, h_e.content⟩

theorem inv_created (h : Inv resolve cacheDir blob s) {k : κ}
    (hk : ∀ name, IsHash name → resolve (cacheFilePath cacheDir name) ≠ k) :
    Inv resolve cacheDir blob (s.created k) := by
  have h_unused := unused_inodes h
  refine inv_inodes (inv_setContent (inv_setNode h hk _) ⟨h_unused.entry, ?_⟩ []) (Nat.le_succ _)
  intro name h_hash
  rw [s.setNode_of_ne _ (hk name h_hash)]
  exact h_unused.file name h_hash

/-- The new inode is not referred to. -/
theorem unused_created (h : Inv resolve cacheDir blob s) {k : κ}
    (hk : ∀ name, IsHash name → resolve (cacheFilePath cacheDir name) ≠ k) :
    Unused resolve cacheDir (s.created k) s.inodes := by
  have h_unused := unused_inodes h
  refine ⟨h_unused.entry, fun name h_hash => ?_⟩
  have h_node : (s.created k).node (resolve (cacheFilePath cacheDir name))
      = s.node (resolve (cacheFilePath cacheDir name)) := s.setNode_of_ne _ (hk name h_hash)
  rw [h_node]
  exact h_unused.file name h_hash

/-- A complete file gets the name of a cache file. -/
theorem inv_setNode_file (h : Inv resolve cacheDir blob s) (h_resolve : Separate resolve cacheDir)
    {name : Str} (h_hash : IsHash name) {j : ℕ} (h_lt : j < s.inodes)
    (h_content : s.content j = blob name) :
    Inv resolve cacheDir blob (s.setNode (resolve (cacheFilePath cacheDir name)) (some (.file j))) := by
  refine ⟨fun name' h_hash' => ?_, fun name e he => ?_, h.names, h.addresses⟩
  · by_cases h_eq : name' = name
    · subst h_eq
      exact Or.inr ⟨j, s.setNode_self _ _, h_lt, h_content⟩
    · have h_ne : resolve (cacheFilePath cacheDir name') ≠ resolve (cacheFilePath cacheDir name) :=
        fun h_key => h_eq (cacheFilePath_inj h_hash' h_hash
          (h_resolve _ _ (.file h_hash') (.file h_hash) h_key))
      have h_node : (s.setNode (resolve (cacheFilePath cacheDir name)) (some (.file j))).node
          (resolve (cacheFilePath cacheDir name')) = s.node (resolve (cacheFilePath cacheDir name')) :=
        s.setNode_of_ne _ h_ne
      rcases h.file name' h_hash' with h_none | ⟨k, h_k, h_k_lt, h_k_content⟩
      · exact Or.inl (h_node.trans h_none)
      · exact Or.inr ⟨k, h_node.trans h_k, h_k_lt, h_k_content⟩
  · have h_e := h.entry name e he
    exact ⟨h_e.hash, h_e.address, h_e.inode, h_e.size, h_e.content⟩

end Invariant

/-! ### Sections in which the mutex is held -/

section Held

variable {ι κ α β : Type} [DecidableEq κ] (resolve : Str → κ) (cacheDir : Str) (blob : Str → Str)

/-- The judgment of the thread `i`: any system call may fail, and the thread may abort. -/
abbrev Keeps (i : ι) (Q : α → World ι κ → Prop) (p : Proc ι α) (e : Errno) (s : World ι κ) : Prop :=
  (machine resolve).Safe (fun _ => True) True (rely resolve cacheDir blob i)
    (guarantee resolve cacheDir blob i) Q p e s

/-- What `get` of `name` returns. -/
def Result (name : Str) (r : Option ℕ) (s : World ι κ) : Prop :=
  Inv resolve cacheDir blob s ∧ ∀ p, r = some p → ∃ e, (name, e) ∈ s.mapped ∧ e.address = p

variable {resolve cacheDir blob} {i : ι} {s : World ι κ} {Q : α → World ι κ → Prop} {e : Errno}

/-- A call that is no system call is not concerned by faults. -/
theorem exec_of_not_isSysCall {c : Op ι} (hc : c.isSysCall = false) (f : Option Fault) :
    exec resolve f c s = c.run resolve s := by
  rcases f with _ | ⟨x | n⟩
  · rfl
  · simp [exec, hc]
  · cases c with
    | write fd data => simp [Op.isSysCall] at hc
    | _ => rfl

/-- A call other than `write` fails by a fault, or does what it should. -/
theorem exec_cases {c : Op ι} (hc : ∀ fd data, c ≠ .write fd data) (f : Option Fault) :
    (∃ x, exec resolve f c s = (.error x, s)) ∨ exec resolve f c s = c.run resolve s := by
  rcases f with _ | ⟨x | n⟩
  · exact Or.inr rfl
  · by_cases h_sys : c.isSysCall
    · exact Or.inl ⟨x, by simp [exec, h_sys]⟩
    · exact Or.inr (by simp [exec, h_sys])
  · cases c with
    | write fd data => exact absurd rfl (hc fd data)
    | _ => exact Or.inr rfl

/-- While the mutex is held nobody interferes. -/
theorem keeps_sys {c : Op ι} {k : Except Errno c.Val → Proc ι α} (h : s.holder = some i)
    (hk : ∀ f, guarantee resolve cacheDir blob i s (exec resolve f c s).2 ∧
      ∀ e', Keeps resolve cacheDir blob i Q (k (exec resolve f c s).1) e' (exec resolve f c s).2) :
    Keeps resolve cacheDir blob i Q (sys c >>= k) e s := by
  have h_stable : Machine.StableUnder (rely resolve cacheDir blob i) fun s' => s' = s := by
    rintro s₁ s₂ rfl h_rely
    exact h_rely.own h
  refine Machine.safe_call (P := fun s' => s' = s) h_stable rfl ?_
  rintro s' rfl f -
  exact ⟨(hk f).1, (hk f).2 _⟩

/-- A system call other than `write`: it fails, or does what it should. -/
theorem keeps_call {c : Op ι} {r : Except Errno c.Val} {s' : World ι κ}
    {k : Except Errno c.Val → Proc ι α} (h_run : c.run resolve s = (r, s'))
    (hc : ∀ fd data, c ≠ .write fd data) (h : s.holder = some i)
    (h_error : ∀ x e', Keeps resolve cacheDir blob i Q (k (.error x)) e' s)
    (h_step : guarantee resolve cacheDir blob i s s')
    (hk : ∀ e', Keeps resolve cacheDir blob i Q (k r) e' s') :
    Keeps resolve cacheDir blob i Q (sys c >>= k) e s := by
  refine keeps_sys h fun f => ?_
  rcases exec_cases (s := s) hc f with ⟨x, h_eq⟩ | h_eq
  · rw [h_eq]
    exact ⟨guarantee_refl i s, h_error x⟩
  · rw [h_eq, h_run]
    exact ⟨h_step, hk⟩

theorem keeps_always {c : Op ι} {v : c.Val} {s' : World ι κ} {k : c.Val → Proc ι α}
    (hc : c.isSysCall = false) (h : s.holder = some i) (h_run : c.run resolve s = (.ok v, s'))
    (h_step : guarantee resolve cacheDir blob i s s')
    (hk : ∀ e', Keeps resolve cacheDir blob i Q (k v) e' s') :
    Keeps resolve cacheDir blob i Q (always c >>= k) e s := by
  rw [always, bind_assoc]
  refine keeps_sys h fun f => ?_
  rw [exec_of_not_isSysCall hc, h_run]
  exact ⟨h_step, hk⟩

/-- The end of the section. -/
theorem keeps_leave {a : α} (h : s.holder = some i)
    (hQ : Q a { s with holder := none })
    (h_stable : Machine.StableUnder (rely resolve cacheDir blob i) (Q a)) :
    Keeps resolve cacheDir blob i Q (leave a) e s := by
  refine keeps_always rfl h rfl ?_ fun e' => ?_
  · exact guarantee_of_held h (Or.inr rfl) (fun h_inv => inv_holder h_inv none) (List.prefix_refl _)
  · exact Machine.safe_ret h_stable hQ fun _ h => h

omit [DecidableEq κ] in
theorem result_stable (name : Str) (r : Option ℕ) :
    Machine.StableUnder (rely resolve cacheDir blob i) (Result resolve cacheDir blob name r) := by
  intro s₁ s₂ ⟨h_inv, h_entry⟩ h_rely
  refine ⟨h_rely.inv h_inv, fun p hp => ?_⟩
  obtain ⟨e, he, h_address⟩ := h_entry p hp
  exact ⟨e, h_rely.mapped.subset he, h_address⟩

theorem keeps_leave_none {name : Str} (h : s.holder = some i) (h_inv : Inv resolve cacheDir blob s) :
    Keeps resolve cacheDir blob i (Result resolve cacheDir blob name) (leave none) e s :=
  keeps_leave h ⟨inv_holder h_inv none, by simp⟩ (result_stable name none)

theorem keeps_leave_some {name : Str} {x : Entry} (h : s.holder = some i)
    (h_inv : Inv resolve cacheDir blob s) (hx : (name, x) ∈ s.mapped) :
    Keeps resolve cacheDir blob i (Result resolve cacheDir blob name) (leave (some x.address)) e s := by
  refine keeps_leave h ⟨inv_holder h_inv none, fun p hp => ?_⟩ (result_stable name _)
  obtain rfl : x.address = p := by simpa using hp
  exact ⟨x, hx, rfl⟩

omit [DecidableEq κ] in
theorem mem_of_find {name : Str} {x : Entry} (h : s.find name = some x) : (name, x) ∈ s.mapped := by
  obtain ⟨⟨name', x'⟩, h_find, rfl⟩ := Option.map_eq_some_iff.mp h
  have h_name : name' = name := by simpa using List.find?_some h_find
  exact h_name ▸ List.mem_of_find?_eq_some h_find

/-- The descriptor of a complete file is mapped. -/
theorem keeps_mapFile {name : Str} {j : ℕ} (h : s.holder = some i)
    (h_inv : Inv resolve cacheDir blob s) (h_hash : IsHash name) (h_new : s.find name = none)
    (h_lt : j < s.inodes) (h_content : s.content j = blob name) :
    Keeps resolve cacheDir blob i (Result resolve cacheDir blob name) (mapFile name (.file j)) e s := by
  have h_same : guarantee resolve cacheDir blob i s s := guarantee_refl i s
  have h_fstat : (Op.fstat (ι := ι) (.file j)).run resolve s = (.ok (s.content j).length, s) := rfl
  rw [mapFile]
  refine keeps_call h_fstat (by simp) h (fun _ _ => trivial) h_same fun e' => ?_
  by_cases h_empty : s.content j = []
  · exact keeps_call (run_mmap_empty h_empty) (by simp) h (fun _ _ => keeps_leave_none h h_inv)
      h_same fun e' => keeps_leave_none h h_inv
  · refine keeps_call (run_mmap_file h_empty) (by simp) h (fun _ _ => keeps_leave_none h h_inv)
      h_same fun e' => ?_
    have h_next := inv_emplace h_inv (m := ⟨j, (s.content j).length⟩) h_hash h_new h_lt
      (by rw [h_content]) h_content
    refine keeps_always rfl h (run_emplace_new h_new _) ?_ fun e' => ?_
    · exact guarantee_of_held h (Or.inl h) (fun _ => h_next) (List.prefix_append _ _)
    · refine keeps_leave_some (x := ⟨s.addresses, ⟨j, (s.content j).length⟩⟩) h h_next ?_
      simp [World.added]

/-- A complete file gets its name, and is mapped. -/
theorem keeps_rename {name : Str} {j : ℕ} (h_resolve : Separate resolve cacheDir)
    (h : s.holder = some i) (h_inv : Inv resolve cacheDir blob s) (h_hash : IsHash name)
    (h_new : s.find name = none) (h_lt : j < s.inodes)
    (h_node : s.node (resolve (temporary cacheDir name)) = some (.file j))
    (h_content : s.content j = blob name) :
    Keeps resolve cacheDir blob i (Result resolve cacheDir blob name)
      (sys (.rename (temporary cacheDir name) (cacheFilePath cacheDir name)) >>= fun r => match r with
        | .error _ => Prog.abort
        | .ok _ => mapFile name (.file j)) e s := by
  have h_temporary := file_ne_temporary h_resolve h_hash
  have h_file : s.node (resolve (cacheFilePath cacheDir name)) ≠ some .directory := by
    rcases h_inv.file name h_hash with h_none | ⟨k, h_k, -⟩
    · rw [h_none]
      simp
    · rw [h_k]
      simp
  have h_inv' := inv_setNode_file (inv_setNode h_inv h_temporary none) h_resolve h_hash (j := j)
    h_lt h_content
  refine keeps_call (run_rename h_node (h_temporary name h_hash).symm h_file) (by simp) h
    (fun _ _ => trivial) ?_ fun e' => ?_
  · exact guarantee_of_held h (Or.inl h) (fun _ => h_inv') (List.prefix_refl _)
  · exact keeps_mapFile h h_inv' h_hash h_new h_lt h_content

/-- A file is written under its temporary name, and renamed when it is complete. -/
theorem keeps_store {name : Str} (h_resolve : Separate resolve cacheDir) (h : s.holder = some i)
    (h_inv : Inv resolve cacheDir blob s) (h_hash : IsHash name) (h_new : s.find name = none) :
    Keeps resolve cacheDir blob i (Result resolve cacheDir blob name)
      (store cacheDir name (blob name)) e s := by
  have h_temporary := file_ne_temporary h_resolve h_hash
  rw [store]
  rcases h_node : s.node (resolve (temporary cacheDir name)) with _ | nd
  -- a leftover with the temporary name: `O_EXCL` fails, and nothing was changed
  swap
  · exact keeps_call (run_create_some h_node) (by simp) h (fun _ _ => keeps_leave_none h h_inv)
      (guarantee_refl i s) fun e' => keeps_leave_none h h_inv
  have h_inv_created := inv_created h_inv h_temporary
  have h_unused := unused_created h_inv h_temporary
  refine keeps_call (run_create_none h_node) (by simp) h (fun _ _ => keeps_leave_none h h_inv) ?_
    fun e' => ?_
  · exact guarantee_of_held h (Or.inl h) (fun _ => h_inv_created) (List.prefix_refl _)
  have h_lt : s.inodes < (s.created (resolve (temporary cacheDir name))).inodes := Nat.lt_succ_self _
  have h_name : (s.created (resolve (temporary cacheDir name))).node
      (resolve (temporary cacheDir name)) = some (.file s.inodes) := s.setNode_self _ _
  have h_find : (s.created (resolve (temporary cacheDir name))).find name = none := h_new
  have h_holder : (s.created (resolve (temporary cacheDir name))).holder = some i := h
  -- from here on only these facts about the state after the `open` count
  generalize s.created (resolve (temporary cacheDir name)) = t at *
  refine keeps_sys h_holder fun f => ?_
  obtain ⟨x, h_write⟩ | ⟨d, h_write, h_all⟩ :=
    exec_write resolve f s.inodes (blob name) t
  · -- the `write` failed: the unfinished file has the temporary name, which nobody reads
    rw [h_write]
    exact ⟨guarantee_refl i t, fun _ => trivial⟩
  rw [h_write]
  have h_inv_written := inv_setContent h_inv_created h_unused d
  refine ⟨guarantee_of_held h_holder (Or.inl h_holder) (fun _ => h_inv_written)
    (List.prefix_refl _), fun e' => ?_⟩
  -- a `write` that was cut short is seen by its length, and the file is not renamed
  by_cases h_length : d.length = (blob name).length
  · obtain rfl := h_all h_length
    change Keeps resolve cacheDir blob i _ (if (blob name).length ≠ (blob name).length then _ else _) e' _
    rw [if_neg (not_not.mpr rfl)]
    exact keeps_rename h_resolve h_holder h_inv_written h_hash h_find h_lt h_name
      (t.setContent_self _ _)
  · change Keeps resolve cacheDir blob i _ (if d.length ≠ (blob name).length then _ else _) e' _
    rw [if_pos h_length]
    trivial

/-- `get` after `fetch`. -/
theorem keeps_populate {name : Str} (h_resolve : Separate resolve cacheDir) (h : s.holder = some i)
    (h_inv : Inv resolve cacheDir blob s) (h_hash : IsHash name) :
    Keeps resolve cacheDir blob i (Result resolve cacheDir blob name)
      (populate cacheDir name (blob name)) e s := by
  have h_temporary := file_ne_temporary h_resolve h_hash
  have h_find : (Op.find (ι := ι) name).run resolve s = (.ok (s.find name), s) := rfl
  rw [populate]
  refine keeps_always rfl h h_find (guarantee_refl i s) fun e' => ?_
  rcases h_new : s.find name with _ | x
  swap
  · exact keeps_leave_some h h_inv (mem_of_find h_new)
  have h_inv' : Inv resolve cacheDir blob (s.setNode (resolve (temporary cacheDir name)) none) :=
    inv_setNode h_inv h_temporary none
  obtain ⟨r, h_unlink | h_unlink⟩ :=
    run_unlink resolve s (temporary cacheDir name)
  · exact keeps_call h_unlink (by simp) h
      (fun _ _ => keeps_store h_resolve h h_inv h_hash h_new) (guarantee_refl i s)
      fun e' => keeps_store h_resolve h h_inv h_hash h_new
  · exact keeps_call h_unlink (by simp) h
      (fun _ _ => keeps_store h_resolve h h_inv h_hash h_new)
      (guarantee_of_held h (Or.inl h) (fun _ => h_inv') (List.prefix_refl _))
      fun e' => keeps_store h_resolve h h_inv' h_hash h_new

/-- Where the thread has the mutex again, others have kept the invariant. -/
theorem keeps_lock {k : Unit → Proc ι α} (h_inv : Inv resolve cacheDir blob s)
    (h : s.holder ≠ some i)
    (hk : ∀ s', s'.holder = some i → Inv resolve cacheDir blob s' →
      ∀ e', Keeps resolve cacheDir blob i Q (k ()) e' s') :
    Keeps resolve cacheDir blob i Q (lock i >>= k) e s := by
  have h_stable : Machine.StableUnder (rely resolve cacheDir blob i)
      fun s => Inv resolve cacheDir blob s ∧ s.holder ≠ some i :=
    fun s s' hs h_rely => ⟨h_rely.inv hs.1, h_rely.other hs.2⟩
  refine Machine.safe_spin h_stable ⟨h_inv, h⟩ fun s hs f _ => ?_
  have h_exec : exec resolve f (.lock i) s = (Op.lock i).run resolve s := exec_of_not_isSysCall rfl f
  change guarantee resolve cacheDir blob i s (exec resolve f (.lock i) s).2 ∧
    ∀ v, (exec resolve f (.lock i) s).1 = .ok v → ∀ e',
      Keeps resolve cacheDir blob i Q (k v) e' (exec resolve f (.lock i) s).2
  rw [h_exec]
  by_cases h_free : s.holder = none
  · have h_run : (Op.lock i).run resolve s = (.ok (), { s with holder := some i }) := by
      simp only [Op.run, h_free, if_true]
    rw [h_run]
    refine ⟨⟨fun h_taken => absurd h_free h_taken, fun _ => Or.inr rfl, fun _ => Or.inl rfl,
      fun h_inv => inv_holder h_inv _, List.prefix_refl _⟩, fun v _ e' => ?_⟩
    exact hk _ rfl (inv_holder hs.1 _) e'
  · have h_run : (Op.lock i).run resolve s = (.error (.other 16), s) := by
      simp only [Op.run, h_free, if_false]
    rw [h_run]
    exact ⟨guarantee_refl i s, fun v hv => by simp at hv⟩

theorem keeps_fetchFile {name : Str} {fetch : Option Str} (h_resolve : Separate resolve cacheDir)
    (h : s.holder = some i) (h_inv : Inv resolve cacheDir blob s) (h_hash : IsHash name)
    (h_fetch : ∀ c, fetch = some c → c = blob name) :
    Keeps resolve cacheDir blob i (Result resolve cacheDir blob name)
      (fetchFile cacheDir i name fetch) e s := by
  refine keeps_always rfl h rfl ?_ fun e' => ?_
  · exact guarantee_of_held h (Or.inr rfl) (fun h_inv => inv_holder h_inv none) (List.prefix_refl _)
  cases fetch with
  | none =>
    exact Machine.safe_ret (result_stable name none) ⟨inv_holder h_inv none, by simp⟩ fun _ h => h
  | some result =>
    obtain rfl := h_fetch result rfl
    -- another thread may have done the same in the meantime
    exact keeps_lock (inv_holder h_inv none) (by simp) fun s' h' h_inv' e =>
      keeps_populate h_resolve h' h_inv' h_hash

theorem keeps_openFile {name : Str} {fetch : Option Str} (h_resolve : Separate resolve cacheDir)
    (h : s.holder = some i) (h_inv : Inv resolve cacheDir blob s) (h_hash : IsHash name)
    (h_new : s.find name = none) (h_fetch : ∀ c, fetch = some c → c = blob name) :
    Keeps resolve cacheDir blob i (Result resolve cacheDir blob name)
      (openFile cacheDir i name fetch) e s := by
  have h_same : guarantee resolve cacheDir blob i s s := guarantee_refl i s
  have h_error (x e' : Errno) : Keeps resolve cacheDir blob i (Result resolve cacheDir blob name)
      (if x ≠ .ENOENT then Prog.abort else fetchFile cacheDir i name fetch) e' s := by
    split_ifs
    · trivial
    · exact keeps_fetchFile h_resolve h h_inv h_hash h_fetch
  rw [openFile]
  rcases h_inv.file name h_hash with h_none | ⟨j, h_node, h_lt, h_content⟩
  · exact keeps_call (run_open_none h_none) (by simp) h h_error h_same fun e' => h_error .ENOENT e'
  · exact keeps_call (run_open_some h_node) (by simp) h h_error h_same
      fun e' => keeps_mapFile h h_inv h_hash h_new h_lt h_content

/-- **`get` among other threads.** -/
theorem keeps_get {name : Str} {fetch : Option Str} (h_resolve : Separate resolve cacheDir)
    (h_inv : Inv resolve cacheDir blob s) (h : s.holder ≠ some i) (h_hash : IsHash name)
    (h_fetch : ∀ c, fetch = some c → c = blob name) :
    Keeps resolve cacheDir blob i (Result resolve cacheDir blob name)
      (get cacheDir i name fetch) e s := by
  refine keeps_lock h_inv h fun s h h_inv e => ?_
  have h_find : (Op.find (ι := ι) name).run resolve s = (.ok (s.find name), s) := rfl
  refine keeps_always rfl h h_find (guarantee_refl i s) fun e' => ?_
  rcases h_new : s.find name with _ | x
  swap
  · exact keeps_leave_some h h_inv (mem_of_find h_new)
  have h_long : ¬ name.length < 2 := by
    rw [h_hash.1]
    decide
  change Keeps resolve cacheDir blob i _ (openOrFetch cacheDir i name fetch) e' s
  rw [openOrFetch, if_neg h_long]
  have h_open (s : World ι κ) (e' : Errno) (h : s.holder = some i)
      (h_inv : Inv resolve cacheDir blob s) (h_new : s.find name = none) :
      Keeps resolve cacheDir blob i (Result resolve cacheDir blob name)
        (openFile cacheDir i name fetch) e' s :=
    keeps_openFile h_resolve h h_inv h_hash h_new h_fetch
  have h_error (x e' : Errno) : Keeps resolve cacheDir blob i (Result resolve cacheDir blob name)
      (if x ≠ .EEXIST then leave none else openFile cacheDir i name fetch) e' s := by
    split_ifs
    · exact keeps_leave_none h h_inv
    · exact h_open s e' h h_inv h_new
  rcases h_node : s.node (resolve (getFileName cacheDir name).1) with _ | nd
  · have h_inv' := inv_setNode h_inv (file_ne_directory h_resolve h_hash) (some .directory)
    refine keeps_call (run_mkdir_none h_node) (by simp) h h_error ?_
      fun e' => h_open _ e' h h_inv' h_new
    exact guarantee_of_held h (Or.inl h) (fun _ => h_inv') (List.prefix_refl _)
  · exact keeps_call (run_mkdir_some h_node) (by simp) h h_error (guarantee_refl i s)
      fun e' => h_error .EEXIST e'

end Held

/-! ### All interleavings -/

section Threads

variable {ι κ : Type} [DecidableEq κ] {resolve : Str → κ} {cacheDir : Str} {blob : Str → Str}
  {s : World ι κ}

omit [DecidableEq κ] in
/-- A pointer shows the element it was returned for. -/
theorem deref_of_mem (h : Inv resolve cacheDir blob s) {name : Str} {e : Entry}
    (he : (name, e) ∈ s.mapped) :
    s.deref e.address = some (name, (blob name).length, blob name) := by
  have h_find : s.mapped.find? (fun m => m.2.address = e.address) = some (name, e) := by
    obtain ⟨m, h_m⟩ : ∃ m, s.mapped.find? (fun m => m.2.address = e.address) = some m := by
      rw [← Option.isSome_iff_exists, List.find?_isSome]
      exact ⟨_, he, by simp⟩
    have h_address : m.2.address = e.address := by simpa using List.find?_some h_m
    rw [h_m, List.inj_on_of_nodup_map h.addresses (List.mem_of_find?_eq_some h_m) he h_address]
  have h_e := h.entry name e he
  rw [World.deref, h_find, Option.map_some, h_e.size, h_e.content, List.take_length]

omit [DecidableEq κ] in
/-- A cache that has just been opened. -/
theorem inv_fresh (h_mapped : s.mapped = [])
    (h_file : ∀ name, IsHash name → FileOk resolve cacheDir blob s name) :
    Inv resolve cacheDir blob s :=
  ⟨h_file, by simp [h_mapped], by simp [h_mapped], by simp [h_mapped]⟩

/-- **Concurrent `get`.** In every configuration that threads calling `get` can reach, each cache
file is absent or complete, every pointer that was returned shows the name it was asked for with the
content of that name, and the pointers returned for one name are the same. -/
theorem concurrent_gets [DecidableEq ι] (h_resolve : Separate resolve cacheDir) (name : ι → Str)
    (fetch : ι → Option Str) (h_hash : ∀ i, IsHash (name i))
    (h_fetch : ∀ i c, fetch i = some c → c = blob (name i)) (h_holder : s.holder = none)
    (h_mapped : s.mapped = []) (h_file : ∀ n, IsHash n → FileOk resolve cacheDir blob s n)
    (e : Errno) {c : Pool (sig ι) ι (World ι κ) (Option ℕ)}
    (h : Pool.Reachable (machine resolve) (fun _ => True)
      ⟨fun i => ⟨get cacheDir i (name i) (fetch i), e⟩, s⟩ c) :
    (∀ n, IsHash n → FileOk resolve cacheDir blob c.state n) ∧
      (∀ i p, (c.threads i).prog = .ret (some p) →
        c.state.deref p = some (name i, (blob (name i)).length, blob (name i))) ∧
      ∀ i j p q, name i = name j → (c.threads i).prog = .ret (some p) →
        (c.threads j).prog = .ret (some q) → p = q := by
  have h_inv := inv_fresh h_mapped h_file
  have h_safe (i : ι) : Keeps resolve cacheDir blob i (Result resolve cacheDir blob (name i))
      (get cacheDir i (name i) (fetch i)) e s :=
    keeps_get h_resolve h_inv (by rw [h_holder]; simp) (h_hash i) (h_fetch i)
  have h_rely (i j : ι) (h_ne : i ≠ j) (s s' : World ι κ)
      (h_step : guarantee resolve cacheDir blob i s s') : rely resolve cacheDir blob j s s' :=
    rely_of_guarantee h_ne h_step
  have h_inv' : Inv resolve cacheDir blob c.state :=
    Pool.Reachable.invariant guarantee_refl h_rely h h_safe
      (fun i s s' h_inv h_step => h_step.inv h_inv) h_inv
  have h_result (i : ι) (p : ℕ) (h_ret : (c.threads i).prog = .ret (some p)) :
      ∃ x, (name i, x) ∈ c.state.mapped ∧ x.address = p :=
    (Pool.Reachable.result guarantee_refl h_rely h h_safe h_ret).2 p rfl
  refine ⟨h_inv'.file, fun i p h_ret => ?_, fun i j p q h_name h_i h_j => ?_⟩
  · obtain ⟨x, hx, rfl⟩ := h_result i p h_ret
    exact deref_of_mem h_inv' hx
  · obtain ⟨x, hx, rfl⟩ := h_result i p h_i
    obtain ⟨y, hy, rfl⟩ := h_result j q h_j
    have h_eq := List.inj_on_of_nodup_map h_inv'.names hx hy h_name
    rw [(Prod.mk.inj h_eq).2]

/-- Two threads that ask for the same name, and a schedule in which both miss. -/
def race : Pool (sig Bool) Bool (World Bool Str) (Option ℕ) :=
  ⟨fun i => ⟨get (str "c/") i (List.replicate 40 0x61) (some (str "x")), .EINVAL⟩,
    ⟨none, [], fun _ => none, fun _ => [], 0, 0⟩⟩

def raceSchedule : List (Bool × Option Fault) :=
  List.replicate 5 (true, none) ++ List.replicate 5 (false, none) ++
    List.replicate 10 (true, none) ++ List.replicate 3 (false, none)

/-- The second thread finds, after its own `fetch`, what the first has mapped. -/
theorem concurrent_gets_race :
    (Pool.play (machine id) raceSchedule race).state.deref 0
      = some (List.replicate 40 0x61, 1, str "x") := by
  have h_ret : ((Pool.play (machine id) raceSchedule race).threads false).prog = .ret (some 0) :=
    Prog.eq_ret_of_value? (by decide +kernel)
  have h_hash : IsHash (List.replicate 40 0x61) := by
    refine ⟨rfl, fun b hb => ?_⟩
    rw [List.eq_of_mem_replicate hb]
    exact ⟨10, rfl, by decide⟩
  have h_separate : Separate (id : Str → Str) (str "c/") := fun p q _ _ h_eq => h_eq
  have h_reachable : Pool.Reachable (machine id) (fun _ => True) race
      (Pool.play (machine id) raceSchedule race) := Pool.reachable_play (fun _ _ => trivial) race
  have h_file (n : Str) (_ : IsHash n) :
      FileOk id (str "c/") (fun _ => str "x") race.state n := Or.inl rfl
  exact (concurrent_gets h_separate
    (fun _ => List.replicate 40 0x61) (fun _ => some (str "x")) (fun _ => h_hash)
    (by exact fun _ _ h => (Option.some.inj h).symm) rfl rfl h_file .EINVAL
    h_reachable).2.1 false 0 h_ret

end Threads

end GitlstreeFS.Cache
