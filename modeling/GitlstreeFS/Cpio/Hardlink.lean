import GitlstreeFS.Cpio.Archive
import GitlstreeFS.Cpio.Inside

/-!
# Hard links in an archive

Of the names of one file `cpio` gives the contents to one, and the others are to find them by their triple.
`serves_iff` says which entries of an archive do, however often they are asked.

* `group` and `groupData` are what a reader of the format takes for the file that an entry is a name of.
* `resolved_eq` is the one place where `resolveHardlink` is evaluated; what is behind it follows from what
  `Contents()` is at the header that it returns (`shows_of_contents`).
* `finiteTarget_linksOf` says what the map finds: the last header with data of its own.
-/

namespace GitlstreeFS.Cpio

variable {m s : Str} {c d : ℤ} {e : Entry} {es : List Entry}

/-! ### Names of one file -/

/-- The triples are equal. -/
def SameFile (e d : Entry) : Prop :=
  d.major = e.major ∧ d.minor = e.minor ∧ d.ino = e.ino

instance (e d : Entry) : Decidable (SameFile e d) :=
  inferInstanceAs (Decidable (_ ∧ _))

/-- A regular file with several names. -/
def Entry.isShared (e : Entry) : Bool :=
  e.mode &&& sIFMT = sIFREG ∧ 1 < e.nlink

/-- The entry carries data. -/
def Entry.hasData (e : Entry) : Bool :=
  e.content ≠ []

theorem Entry.hasData_iff : e.hasData = true ↔ e.content ≠ [] :=
  decide_eq_true_iff

/-- The names of the file that `e` is a name of. -/
def group (es : List Entry) (e : Entry) : List Entry :=
  if e.isShared then es.filter fun d => d.isShared ∧ SameFile e d else [e]

/-- The contents of the file: those of a name that carries some. -/
def groupData (es : List Entry) (e : Entry) : Str :=
  ((group es e).find? Entry.hasData).elim [] Entry.content

/-- At most one name of a file carries data. -/
def OneCarries (es : List Entry) : Prop :=
  ∀ e ∈ es, ((group es e).filter Entry.hasData).length ≤ 1

instance (es : List Entry) : Decidable (OneCarries es) :=
  inferInstanceAs (Decidable (∀ e ∈ es, ((group es e).filter Entry.hasData).length ≤ 1))

/-- The last entry with the triple of `e` that `hardlink_map` gets. -/
def lastLinked (es : List Entry) (e : Entry) : Option Entry :=
  (es.filter fun d => d.isLinked ∧ SameFile e d).getLast?

/-- The number of links is an `int`, and if there are several, the entry has data of its own or the last
entry of its triple that `hardlink_map` gets has those of its file. -/
def Resolvable (es : List Entry) (e : Entry) : Prop :=
  e.nlink < 0x80000000 ∧
    (e.nlink = 1 ∨ e.content ≠ [] ∨ ∃ d ∈ lastLinked es e, d.content = groupData es e)

/-- The data of a name that carries some are those of its file. -/
theorem groupData_of_content (h_one : OneCarries es) (he : e ∈ es) (h_content : e.content ≠ []) :
    groupData es e = e.content := by
  have h_mem : e ∈ (group es e).filter Entry.hasData := by
    refine List.mem_filter.mpr ⟨?_, Entry.hasData_iff.mpr h_content⟩
    rw [group]
    split
    · next h_shared => exact List.mem_filter.mpr ⟨he, by simp [h_shared, SameFile]⟩
    · exact List.mem_singleton_self e
  rw [groupData]
  cases h_find : (group es e).find? Entry.hasData with
  | none =>
    have h_none := List.find?_eq_none.mp h_find e (List.mem_filter.mp h_mem).1
    exact absurd (List.mem_filter.mp h_mem).2 h_none
  | some d =>
    -- there is only one such name
    have h_d : d ∈ (group es e).filter Entry.hasData :=
      List.mem_filter.mpr ⟨List.mem_of_find?_eq_some h_find, List.find?_some h_find⟩
    obtain ⟨x, h_x⟩ : ∃ x, (group es e).filter Entry.hasData = [x] :=
      List.length_eq_one_iff.mp (Nat.le_antisymm (h_one e he) (List.length_pos_of_mem h_d))
    rw [h_x] at h_mem h_d
    rw [List.mem_singleton.mp h_d, ← List.mem_singleton.mp h_mem]
    rfl

/-- The data of a file with one name. -/
theorem groupData_of_nlink (h : e.nlink = 1) : groupData es e = e.content := by
  have h_group : group es e = [e] := by
    rw [group, if_neg (by simp [Entry.isShared, h])]
  rw [groupData, h_group]
  by_cases h_content : e.content = []
  · have h_none : e.hasData = false := by simp [Entry.hasData, h_content]
    rw [List.find?_cons_of_neg (by simp [h_none]), h_content]
    rfl
  · rw [List.find?_cons_of_pos (Entry.hasData_iff.mpr h_content)]
    rfl

/-! ### What is stored at a header -/

/-- `Contents()` can only be read where they have a size. -/
theorem of_contents (h : contents m d = .ok s) :
    ∃ a : ℤ, contentsView m d = .ok (a, s.length) ∧ bytes m a s.length = .ok s ∧
      filesize m d = .ok (s.length : ℤ) ∧ s.length < 0x80000000 := by
  obtain ⟨offset, h_offset, h⟩ := bind_eq_ok_iff.mp h
  obtain ⟨size, h_size, h_bytes⟩ := bind_eq_ok_iff.mp h
  have h_mapped := mapped_of_bytes h_bytes
  have h_fits := fits_of_number h_size
  obtain rfl : size = s.length := by
    rw [bytes, if_pos h_mapped] at h_bytes
    have h_length := congrArg List.length (Except.ok.inj h_bytes)
    rw [List.length_take, List.length_drop] at h_length
    omega
  have h_view : ((s.length : ℤ) % 0x10000000000000000).toNat = s.length := by
    have h_lt := h_fits.2
    omega
  refine ⟨headerEnd d + offset, ?_, h_bytes, h_size, by have := h_fits.2; omega⟩
  rw [contentsView, h_offset, ok_bind, h_size, ok_bind, h_view]
  rfl

/-- A part of what can be read. -/
theorem bytes_part {a : ℤ} (h : bytes m a s.length = .ok s) {pos : ℕ} (h_pos : pos ≤ s.length) (n : ℕ) :
    bytes m (a + pos) (min n (s.length - pos) : ℕ) = .ok ((s.drop pos).take n) := by
  have h_mapped := mapped_of_bytes h
  rw [bytes, if_pos h_mapped, Int.toNat_natCast] at h
  have h_s := Except.ok.inj h
  have h_part : (m.drop (a + pos).toNat).take (min n (s.length - pos)) = (s.drop pos).take n := by
    have h_start : (a + pos).toNat = a.toNat + pos := by omega
    calc (m.drop (a + pos).toNat).take (min n (s.length - pos))
        = (((m.drop a.toNat).drop pos).take (s.length - pos)).take n := by
          rw [h_start, List.drop_drop, List.take_take]
      _ = (s.drop pos).take n := by rw [← List.drop_take, h_s]
  rw [bytes, if_pos ⟨by omega, by omega, by omega⟩, Int.toNat_natCast, h_part]

/-! ### A file that is asked again and again -/

namespace CpioFile

variable {target : HardlinkKey → Except FileFault ℤ} {f f' : CpioFile}

/-- What has been found once is found again, and nothing changes any more. -/
theorem resolveHardlink_again (h : f.resolveHardlink m target = .ok (d, f')) :
    f'.resolveHardlink m target = .ok (d, f') ∧ f'.c = f.c := by
  rw [resolveHardlink] at h
  by_cases h_one : f.nlink = 1
  · rw [if_pos h_one] at h
    obtain ⟨rfl, rfl⟩ := Prod.mk.inj (Except.ok.inj h)
    rw [resolveHardlink, if_pos h_one]
    exact ⟨rfl, rfl⟩
  rw [if_neg h_one] at h
  have h_known (t : ℤ) : ({ f with t := some t } : CpioFile).resolveHardlink m target
      = .ok (t, { f with t := some t }) := by
    rw [resolveHardlink, if_neg h_one]
    rfl
  cases h_t : f.t with
  | some t =>
    rw [h_t] at h
    obtain ⟨rfl, rfl⟩ := Prod.mk.inj (Except.ok.inj h)
    rw [resolveHardlink, if_neg h_one, h_t]
    exact ⟨rfl, rfl⟩
  | none =>
    rw [h_t] at h
    dsimp only at h
    split at h
    · obtain ⟨size, -, h⟩ := bind_eq_ok_iff.mp h
      split at h
      · obtain ⟨_, -, h⟩ := bind_eq_ok_iff.mp h
        obtain ⟨_, -, h⟩ := bind_eq_ok_iff.mp h
        obtain ⟨_, -, h⟩ := bind_eq_ok_iff.mp h
        obtain ⟨t, -, h⟩ := bind_eq_ok_iff.mp h
        obtain ⟨rfl, rfl⟩ := Prod.mk.inj (Except.ok.inj h)
        exact ⟨h_known t, rfl⟩
      · obtain ⟨rfl, rfl⟩ := Prod.mk.inj (Except.ok.inj h)
        exact ⟨h_known f.c, rfl⟩
    · cases h

variable (m target) in
/-- What the methods of a file show is `data`. -/
structure Shows (f : CpioFile) (data : Str) : Prop where
  resolves : ∃ d f', f.resolveHardlink m target = .ok (d, f') ∧ contents m d = .ok data
  size : ∃ st_mode f', f.getattr m target = .ok ((st_mode, (data.length : ℤ)), f')
  read : ∀ size offset, ∃ f', f.read m target size offset = .ok ((data.drop offset).take size, f')

/-- **What `Getattr` and `Read` show are the contents at the header that is found.** -/
theorem shows_of_contents {st_mode : ℤ} (h_mode : mode m f.c = .ok st_mode)
    (h_resolve : f.resolveHardlink m target = .ok (d, f')) (h_contents : contents m d = .ok s) :
    f.Shows m target s := by
  obtain ⟨a, h_view, h_bytes, h_size, h_lt⟩ := of_contents h_contents
  refine ⟨⟨d, f', h_resolve, h_contents⟩, ⟨bits st_mode, f', ?_⟩, fun size offset => ⟨f', ?_⟩⟩
  · rw [getattr, h_mode, lift, ok_bind, h_resolve, ok_bind]
    dsimp only
    rw [h_size, lift, ok_bind]
    rfl
  · have h_off : ((s.length : ℕ) : ℤ).bmod 0x10000000000000000 = s.length :=
      Int.bmod_eq_of_le (by omega) (by omega)
    rw [read, h_resolve, ok_bind]
    dsimp only
    rw [h_view, lift, ok_bind]
    dsimp only
    rw [h_off]
    by_cases h_end : (offset : ℤ) < s.length
    · -- whether the size was cut before or not, `copy` stops at the end
      have h_min : min (if s.length < (offset + size) % 0x10000000000000000 then s.length - offset else size)
          (s.length - offset) = min size (s.length - offset) := by
        split <;> omega
      rw [if_pos h_end, copy, h_min, bytes_part h_bytes (by omega)]
      rfl
    · have h_nil : s.drop offset = [] := List.drop_eq_nil_of_le (by omega)
      rw [if_neg h_end, h_nil, List.take_nil]
      rfl

/-- What the file is after any number of calls. -/
theorem exists_after (h : f.resolveHardlink m target = .ok (d, f')) (n : ℕ) :
    ∃ g g', f.after m target n = .ok g ∧ g.c = f.c ∧ g.resolveHardlink m target = .ok (d, g') := by
  induction n generalizing f f' with
  | zero => exact ⟨f, f', rfl, rfl, h⟩
  | succ n ih =>
    obtain ⟨h_again, h_c⟩ := resolveHardlink_again h
    obtain ⟨g, g', h_after, h_g, h_resolve⟩ := ih h_again
    refine ⟨g, g', ?_, h_g.trans h_c, h_resolve⟩
    rw [after, h, ok_bind]
    exact h_after

end CpioFile

/-! ### The files of an archive -/

variable {target : HardlinkKey → Except FileFault ℤ}

/-- The file with the header `c` shows `data`, whatever it has been asked before. -/
def Serves (m : Str) (target : HardlinkKey → Except FileFault ℤ) (c : ℤ) (data : Str) : Prop :=
  ∃ f, CpioFile.make m c = .ok f ∧ ∀ n, ∃ g, f.after m target n = .ok g ∧ g.Shows m target data

/-- The header that a new file finds. -/
def resolved (m : Str) (target : HardlinkKey → Except FileFault ℤ) (c : ℤ) : Except FileFault ℤ := do
  let f ← CpioFile.make m c
  return (← f.resolveHardlink m target).1

theorem nlink_eq (h : Stands m c e) : nlink m c = .ok (toInt e.nlink) := by
  obtain ⟨fields, u, v, h_at⟩ := h
  rw [nlink, number_eq h_at (n := e.nlink) rfl]

theorem mode_eq (h : Stands m c e) : mode m c = .ok (toInt e.mode) := by
  obtain ⟨fields, u, v, h_at⟩ := h
  rw [mode, number_eq h_at (n := e.mode) rfl]

/-- The triple at a header. -/
theorem key_eq (h : Stands m c e) :
    major m c = .ok e.key.major ∧ minor m c = .ok e.key.minor ∧ ino m c = .ok e.key.inode := by
  obtain ⟨fields, u, v, h_at⟩ := h
  rw [major, number_eq h_at (n := e.major) rfl, minor, number_eq h_at (n := e.minor) rfl, ino,
    number_eq h_at (n := e.ino) rfl]
  simp only [Entry.key, and_self]

/-- A number of the archive has 32 bits. -/
theorem Stands.lt (h : Stands m c e) {n : ℕ} (h_n : n ∈ e.numbers) : n < 0x100000000 := by
  obtain ⟨fields, u, v, h_at⟩ := h
  obtain ⟨i, h_i, rfl⟩ := List.getElem_of_mem h_n
  obtain ⟨-, s, -, -, -, h_s⟩ := exists_field h_at.numbers (List.getElem?_eq_getElem h_i)
  exact h_s.lt

theorem make_eq (h : Stands m c e) : CpioFile.make m c = .ok ⟨c, toInt e.nlink, none⟩ := by
  rw [CpioFile.make, nlink_eq h, lift, ok_bind]
  rfl

/-- **What `resolveHardlink` finds at first.** -/
theorem resolved_eq (h : Stands m c e) (h_sized : e.Sized) :
    resolved m target c = if toInt e.nlink = 1 then .ok c
      else if 1 < toInt e.nlink then if e.content = [] then target e.key else .ok c
      else .error .assertion := by
  obtain ⟨h_major, h_minor, h_ino⟩ := key_eq h
  have h_size : contentsSize m c = .ok (e.content.length : ℤ) := by
    obtain ⟨fields, u, v, h_at⟩ := h
    exact contentsSize_eq h_at h_sized
  have h_empty : (e.content.length : ℤ) = 0 ↔ e.content = [] := by
    rw [Nat.cast_eq_zero, List.length_eq_zero_iff]
  rw [resolved, make_eq h, ok_bind, CpioFile.resolveHardlink]
  dsimp only
  split
  · rfl
  · split
    · rw [h_size, lift, ok_bind]
      split
      · next h_zero =>
        rw [if_pos (h_empty.mp h_zero), h_major, lift, ok_bind, h_minor, lift, ok_bind, h_ino, lift, ok_bind]
        cases target e.key with
        | error _ => rfl
        | ok _ => rfl
      · next h_zero =>
        rw [if_neg fun h_nil => h_zero (h_empty.mpr h_nil)]
        rfl
    · rfl

/-- It is enough that the header that is found first has the contents. -/
theorem serves_iff_resolved (h : Stands m c e) :
    Serves m target c s ↔ ∃ d, resolved m target c = .ok d ∧ contents m d = .ok s := by
  constructor
  · rintro ⟨f, h_f, h_shows⟩
    obtain ⟨g, h_g, ⟨d, f', h_resolve, h_contents⟩, -, -⟩ := h_shows 0
    obtain rfl := Except.ok.inj h_g
    refine ⟨d, ?_, h_contents⟩
    rw [resolved, h_f, ok_bind, h_resolve]
    rfl
  · rintro ⟨d, h_resolved, h_contents⟩
    rw [resolved, make_eq h, ok_bind] at h_resolved
    obtain ⟨⟨d', f'⟩, h_resolve, h_d⟩ := bind_eq_ok_iff.mp h_resolved
    obtain rfl : d' = d := Except.ok.inj h_d
    refine ⟨_, make_eq h, fun n => ?_⟩
    obtain ⟨g, g', h_after, h_c, h_again⟩ := CpioFile.exists_after h_resolve n
    have h_mode : mode m g.c = .ok (toInt e.mode) := by
      rw [h_c]
      exact mode_eq h
    exact ⟨g, h_after, CpioFile.shows_of_contents h_mode h_again h_contents⟩

/-! ### What the map finds -/

/-- The triples of the entries tell them apart as the numbers of the archive do. -/
theorem key_eq_iff (h_e : ∀ n ∈ e.numbers, n < 0x100000000) {d : Entry}
    (h_d : ∀ n ∈ d.numbers, n < 0x100000000) : d.key = e.key ↔ SameFile e d := by
  have h_toInt {a b : ℕ} (h_a : a < 0x100000000) (h_b : b < 0x100000000) : toInt a = toInt b ↔ a = b := by
    refine ⟨fun h => ?_, congrArg fun k : ℕ => toInt k⟩
    rw [← bits_toInt h_a, ← bits_toInt h_b, h]
  have h_lt {e : Entry} (h : ∀ n ∈ e.numbers, n < 0x100000000) :
      e.major < 0x100000000 ∧ e.minor < 0x100000000 ∧ e.ino < 0x100000000 :=
    ⟨h _ (by simp [Entry.numbers]), h _ (by simp [Entry.numbers]), h _ (by simp [Entry.numbers])⟩
  obtain ⟨h_major, h_minor, h_ino⟩ := h_lt h_e
  obtain ⟨h_major', h_minor', h_ino'⟩ := h_lt h_d
  rw [Entry.key, Entry.key, HardlinkKey.mk.injEq, h_toInt h_major' h_major, h_toInt h_minor' h_minor,
    h_toInt h_ino' h_ino, SameFile]

/-- A map finds what it was given last. -/
theorem lookup_reverse {α β : Type} [DecidableEq α] (l : List (α × β)) (k : α) :
    l.reverse.lookup k = ((l.filter fun p => p.1 = k).getLast?).map Prod.snd := by
  induction l using List.reverseRecOn with
  | nil => rfl
  | append_singleton l p ih =>
    rw [List.reverse_append, List.reverse_singleton, List.singleton_append, List.filter_append]
    by_cases h_k : p.1 = k
    · have h_last : [p].filter (fun p => p.1 = k) = [p] := List.filter_singleton.trans (by simp [h_k])
      rw [h_last, List.getLast?_concat, ← h_k]
      exact List.lookup_cons_self
    · have h_last : [p].filter (fun p => p.1 = k) = [] := by simp [h_k]
      have h_beq : (k == p.1) = false := beq_false_of_ne (Ne.symm h_k)
      rw [h_last, List.append_nil, ← ih, List.lookup_cons, h_beq]

/-- **What is found under the triple of an entry** is the last header that it was given. -/
theorem finiteTarget_linksOf {cs : List ℤ} (h : List.Forall₂ (Stands m) cs es) (he : e ∈ es) :
    (lastLinked es e = none ∧ finiteTarget (linksOf cs es) e.key = .error .null) ∨
      ∃ d c, lastLinked es e = some d ∧ d ∈ es ∧ Stands m c d ∧
        finiteTarget (linksOf cs es) e.key = .ok c := by
  rw [List.forall₂_iff_zip] at h
  have h_es : (cs.zip es).map Prod.snd = es := List.map_snd_zip (Nat.le_of_eq h.1.symm)
  have h_lt : ∀ d ∈ es, ∀ n ∈ d.numbers, n < 0x100000000 := by
    intro d hd n hn
    rw [← h_es, List.mem_map] at hd
    obtain ⟨p, hp, rfl⟩ := hd
    exact (h.2 hp).lt hn
  -- the pairs of a header and an entry that count
  set pairs := (cs.zip es).filter fun p => p.2.isLinked ∧ SameFile e p.2 with h_pairs
  have h_last : lastLinked es e = pairs.getLast?.map Prod.snd := by
    rw [lastLinked, ← List.getLast?_map, h_pairs]
    conv_lhs => rw [← h_es]
    rw [List.filter_map]
    simp only [Function.comp_def]
  have h_lookup : (linksOf cs es).reverse.lookup e.key = pairs.getLast?.map Prod.fst := by
    have h_filter : (linksOf cs es).filter (fun p => p.1 = e.key) = pairs.map fun p => (p.2.key, p.1) := by
      rw [linksOf, List.filter_map, List.filter_filter]
      refine congrArg _ (List.filter_congr fun p hp => ?_)
      have h_key := key_eq_iff (h_lt e he) (h_lt p.2 (List.of_mem_zip hp).2)
      rw [Bool.eq_iff_iff, Bool.and_eq_true, Function.comp_apply, decide_eq_true_iff, decide_eq_true_iff,
        and_comm, h_key]
    rw [lookup_reverse, h_filter, List.getLast?_map, Option.map_map]
    simp only [Function.comp_def]
  rw [finiteTarget, h_lookup, h_last]
  cases h_p : pairs.getLast? with
  | none => exact .inl ⟨rfl, rfl⟩
  | some p =>
    have h_mem := (List.mem_filter.mp (List.mem_of_getLast? h_p)).1
    exact .inr ⟨p.2, p.1, rfl, (List.of_mem_zip h_mem).2, h.2 h_mem, rfl⟩

/-- Of two successful readings of the contents both are the same. -/
theorem Stands.contents (h : Stands m c e) (h_sized : e.Sized) : contents m c = .ok s ↔ e.content = s := by
  rw [(h.reads h_sized).2]
  exact ⟨Except.ok.inj, congrArg _⟩

/-- **An entry resolves to the contents of its file just if the map leads to them.** -/
theorem resolved_iff {cs : List ℤ} (h : List.Forall₂ (Stands m) cs es) (h_sized : ∀ e ∈ es, e.Sized)
    (h_one : OneCarries es) (h_c : Stands m c e) (he : e ∈ es) (h_nlink : 1 ≤ e.nlink) :
    (∃ d, resolved m (finiteTarget (linksOf cs es)) c = .ok d ∧ contents m d = .ok (groupData es e)) ↔
      Resolvable es e := by
  have h_lt : e.nlink < 0x100000000 := h_c.lt (by simp [Entry.numbers])
  rw [resolved_eq h_c (h_sized e he), Resolvable]
  by_cases h_int : e.nlink < 0x80000000
  · have h_self : (∃ d, Except.ok (ε := FileFault) c = .ok d ∧ contents m d = .ok (groupData es e)) ↔
        e.content = groupData es e := by
      rw [← h_c.contents (h_sized e he)]
      refine ⟨?_, fun h_contents => ⟨c, rfl, h_contents⟩⟩
      rintro ⟨d, h_d, h_contents⟩
      exact Except.ok.inj h_d ▸ h_contents
    rw [toInt_of_lt h_int]
    by_cases h_nlink₁ : e.nlink = 1
    · rw [if_pos (by omega), h_self, groupData_of_nlink h_nlink₁]
      exact iff_of_true rfl ⟨h_int, .inl h_nlink₁⟩
    · rw [if_neg (by omega), if_pos (by omega)]
      by_cases h_content : e.content = []
      · rw [if_pos h_content]
        obtain ⟨h_none, h_target⟩ | ⟨d, c', h_some, hd, h_d, h_target⟩ := finiteTarget_linksOf h he
        · rw [h_target, h_none]
          simp [h_nlink₁, h_content]
        · rw [h_target, h_some]
          simp [h_nlink₁, h_content, h_int, h_d.contents (h_sized d hd)]
      · rw [if_neg h_content, h_self, groupData_of_content h_one he h_content]
        exact iff_of_true rfl ⟨h_int, .inr (.inl h_content)⟩
  · -- the number of links is read as a negative one
    have h_neg : toInt e.nlink < 0 := by
      have h_fits := fits_toInt (e.nlink : ℤ)
      have h_bits := bits_toInt h_lt
      unfold Fits at h_fits
      unfold bits at h_bits
      omega
    rw [if_neg (by omega), if_neg (by omega)]
    simp [h_int]

/-- So it is of its methods. -/
theorem serves_iff_resolvable {cs : List ℤ} (h : List.Forall₂ (Stands m) cs es)
    (h_sized : ∀ e ∈ es, e.Sized) (h_one : OneCarries es) {p : ℤ × Entry} (hp : p ∈ cs.zip es)
    (h_nlink : 1 ≤ p.2.nlink) :
    Serves m (finiteTarget (linksOf cs es)) p.1 (groupData es p.2) ↔ Resolvable es p.2 := by
  have h_p : Stands m p.1 p.2 := (List.forall₂_iff_zip.mp h).2 hp
  rw [serves_iff_resolved h_p]
  exact resolved_iff h h_sized h_one h_p (List.of_mem_zip hp).2 h_nlink

/-! ### How large an archive may be -/

/-- `LoadDirectory` goes through the archive: it visits each entry, finds its name and its contents, and comes
to the trailer. -/
structure Unpacks (m : Str) (n : ℕ) (es : List Entry) (loaded : Loaded) : Prop where
  load : loadDirectory m n = .ok (true, loaded)
  reads : List.Forall₂ (Reads m) loaded.visited es
  adds : loaded.adds = addsOf loaded.visited es

theorem unpacks_of_stands {n : ℕ} {loaded : Loaded} (h_load : loadDirectory m n = .ok (true, loaded))
    (h_stands : List.Forall₂ (Stands m) loaded.visited es) (h_sized : ∀ e ∈ es, e.Sized)
    (h_adds : loaded.adds = addsOf loaded.visited es) : Unpacks m n es loaded := by
  refine ⟨h_load, ?_, h_adds⟩
  rw [List.forall₂_iff_zip] at h_stands ⊢
  exact ⟨h_stands.1, fun h_mem => (h_stands.2 h_mem).reads (h_sized _ (List.of_mem_zip h_mem).2)⟩

/-- Each entry has a header that has been visited. -/
theorem Unpacks.exists_header {n : ℕ} {loaded : Loaded} (h : Unpacks m n es loaded) (he : e ∈ es) :
    ∃ c, (c, e) ∈ loaded.visited.zip es := by
  obtain ⟨i, h_i, rfl⟩ := List.getElem_of_mem he
  have h_visited : i < loaded.visited.length := by rwa [h.reads.length_eq]
  refine ⟨loaded.visited[i], ?_⟩
  rw [← List.getElem_zip (h := by rw [List.length_zip]; omega)]
  exact List.getElem_mem _

/-- Where an entry is read, and the loop goes on, the offsets are `int`s. -/
theorem sized_of_reads (h_check : checkHeader m c = .ok true) (h : Reads m c e) (h_next : next m c = .ok d) :
    e.Sized := by
  obtain ⟨-, n, f, h_n, h_f, -, h_fits, h_pos, -⟩ := IsHeader.spec ⟨h_check, h.1⟩
  obtain ⟨-, -, h_bytes, h_f', -⟩ := of_contents h.2
  obtain rfl := Except.ok.inj (h_f.symm.trans h_f')
  have h_offsets := ((next_eq_ok_iff h_n h_f h_pos h_fits).mp h_next).1
  -- the name that has been read is as long as its header says
  have h_name := h.1
  rw [fileName, h_n, ok_bind] at h_name
  obtain ⟨k, h_k, h_name⟩ := bind_eq_ok_iff.mp h_name
  have h_mapped := mapped_of_bytes h_name
  rw [bytes, if_pos h_mapped] at h_name
  have h_length := congrArg List.length (Except.ok.inj h_name)
  rw [List.length_take, List.length_drop] at h_length
  have h_k' : k = n - 1 := by
    rw [int] at h_k
    split at h_k
    · exact (Except.ok.inj h_k).symm
    · cases h_k
  have h_eq : ((e.name.length + 1 : ℕ) : ℤ) = n := by omega
  rw [Entry.Sized, h_eq]
  exact h_offsets

theorem visited_of_addFile {name : Str} {loaded loaded' : Loaded} (h : addFile m c name loaded = .ok loaded') :
    loaded'.visited = loaded.visited := by
  rw [addFile] at h
  obtain ⟨_, -, h⟩ := bind_eq_ok_iff.mp h
  obtain ⟨_, -, h⟩ := bind_eq_ok_iff.mp h
  obtain ⟨_, -, h⟩ := bind_eq_ok_iff.mp h
  obtain ⟨_, -, h⟩ := bind_eq_ok_iff.mp h
  obtain ⟨_, -, h⟩ := bind_eq_ok_iff.mp h
  split at h
  · rw [← Except.ok.inj h]
  · rw [← Except.ok.inj h]

theorem visited_of_visit {name : Str} {loaded loaded' : Loaded} (h : visit m c name loaded = .ok loaded') :
    loaded'.visited = loaded.visited ++ [c] := by
  obtain ⟨_, -, h⟩ := bind_eq_ok_iff.mp h
  obtain ⟨_, -, h⟩ := bind_eq_ok_iff.mp h
  split at h
  · exact visited_of_addFile h
  · rw [← Except.ok.inj h]

/-- The headers that have been visited stay so. -/
theorem visited_of_load {n : ℕ} {b : Bool} {loaded loaded' : Loaded} (h : load m n c loaded = .ok (b, loaded')) :
    ∃ cs, loaded'.visited = loaded.visited ++ cs := by
  induction n generalizing c loaded with
  | zero => cases h
  | succ n ih =>
    obtain ⟨e, -, h_load⟩ | ⟨-, h_load⟩ | ⟨-, h_load⟩ | ⟨name, c', -, -, -, h_load⟩ := load_cases m c
    · rw [h_load] at h
      cases h
    · rw [h_load] at h
      obtain ⟨-, rfl⟩ := Prod.mk.inj (Except.ok.inj h)
      exact ⟨[], (List.append_nil _).symm⟩
    · rw [h_load] at h
      obtain ⟨-, rfl⟩ := Prod.mk.inj (Except.ok.inj h)
      exact ⟨[], (List.append_nil _).symm⟩
    · obtain ⟨loaded₁, h_visit, h_load⟩ := h_load loaded
      rw [h_load] at h
      obtain ⟨cs, h_cs⟩ := ih h
      rw [h_cs, visited_of_visit h_visit, List.append_assoc]
      exact ⟨c :: cs, rfl⟩

/-- **Each entry that the loop has read was small enough**, by induction on the entries that are left. -/
theorem sized_of_load {texts : List Str} (h_texts : List.Forall₂ Newc es texts) (rest : Str) :
    ∀ (u : Str) (n : ℕ) (loaded loaded' : Loaded) (b : Bool) (cs : List ℤ),
      load (u ++ (texts.flatten ++ rest)) n u.length loaded = .ok (b, loaded') →
      loaded'.visited = loaded.visited ++ cs →
      List.Forall₂ (Reads (u ++ (texts.flatten ++ rest))) cs es → ∀ e ∈ es, e.Sized := by
  induction h_texts with
  | nil => exact fun _ _ _ _ _ _ _ _ _ e he => absurd he List.not_mem_nil
  | @cons e text es texts h_text h_texts ih =>
    rintro u n loaded loaded' b (_ | ⟨c, cs⟩) h_load h_visited h_reads
    · cases h_reads
    cases n with
    | zero => cases h_load
    | succ n =>
    obtain ⟨h_e, h_es⟩ := List.forall₂_cons.mp h_reads
    -- the loop does not end here, since it has visited a header
    have h_ended {b' : Bool} (h : ∀ k loaded,
        load (u ++ ((text :: texts).flatten ++ rest)) (k + 1) u.length loaded = .ok (b', loaded)) : False := by
      rw [h] at h_load
      obtain ⟨-, rfl⟩ := Prod.mk.inj (Except.ok.inj h_load)
      exact List.cons_ne_nil _ _ (List.self_eq_append_right.mp h_visited)
    obtain ⟨x, -, h_fails⟩ | ⟨-, h_stops⟩ | ⟨-, h_stops⟩ | ⟨name, c', h_header, -, h_next, h_goes⟩ :=
      load_cases (u ++ ((text :: texts).flatten ++ rest)) u.length
    · rw [h_fails] at h_load
      cases h_load
    · exact (h_ended h_stops).elim
    · exact (h_ended h_stops).elim
    obtain ⟨loaded₁, h_visit, h_goes⟩ := h_goes loaded
    rw [h_goes] at h_load
    obtain ⟨cs', h_cs'⟩ := visited_of_load h_load
    rw [visited_of_visit h_visit, h_visited, List.append_assoc] at h_cs'
    obtain ⟨rfl, rfl⟩ := List.cons.inj (List.append_cancel_left h_cs')
    have h_sized : e.Sized := sized_of_reads h_header.check h_e h_next
    -- so the next header is the next entry
    obtain ⟨fields, h_fields⟩ := h_text
    have h_at : At (u ++ (((head fields e ++ body e) :: texts).flatten ++ rest)) u.length e fields u
        (texts.flatten ++ rest) :=
      ⟨h_fields, rfl, by rw [List.flatten_cons, List.append_assoc], (Entry.sized_iff.mp h_sized).1⟩
    obtain rfl := Except.ok.inj (h_next.symm.trans (next_eq h_at h_sized))
    have h_file : u ++ (((head fields e ++ body e) :: texts).flatten ++ rest)
        = (u ++ (head fields e ++ body e)) ++ (texts.flatten ++ rest) := by
      rw [h_at.file, List.append_assoc u]
    change load (u ++ (((head fields e ++ body e) :: texts).flatten ++ rest)) n _ _ = _ at h_load
    change List.Forall₂ (Reads (u ++ (((head fields e ++ body e) :: texts).flatten ++ rest))) _ _ at h_es
    rw [h_file] at h_load h_es
    refine List.forall_mem_cons.mpr ⟨h_sized, ih _ n loaded₁ loaded' b cs h_load ?_ h_es⟩
    rw [visited_of_visit h_visit, h_visited, List.append_assoc]
    rfl

/-- The same of the whole archive. -/
theorem Unpacks.sized {texts : List Str} {t rest : Str} {n : ℕ} {loaded : Loaded}
    (h : Unpacks (texts.flatten ++ t ++ rest) n es loaded) (h_texts : List.Forall₂ Newc es texts) :
    ∀ e ∈ es, e.Sized := by
  obtain ⟨h_load, h_reads, -⟩ := h
  rw [List.append_assoc] at h_load h_reads
  exact sized_of_load h_texts (t ++ rest) [] n ⟨[], [], []⟩ loaded true loaded.visited h_load rfl h_reads

/-! ### The theorem -/

/-- Where the offsets are `int`s, `LoadDirectory` goes through the archive, and behind it each entry with at
least one link shows the data of its file just if it is `Resolvable`. -/
theorem exists_unpacks (h_ne : ∀ e ∈ es, e.name ≠ str "TRAILER!!!") (h_sized : ∀ e ∈ es, e.Sized)
    {texts : List Str} (h_texts : List.Forall₂ Newc es texts) {trailer : Entry}
    (h_name : trailer.name = str "TRAILER!!!") {t : Str} (h_t : Newc trailer t) (rest : Str) {n : ℕ}
    (hn : es.length < n) (h_one : OneCarries es) :
    ∃ loaded, Unpacks (texts.flatten ++ t ++ rest) n es loaded ∧
      ∀ p ∈ loaded.visited.zip es, 1 ≤ p.2.nlink →
        (Serves (texts.flatten ++ t ++ rest) (finiteTarget loaded.hardlinks) p.1 (groupData es p.2) ↔
          Resolvable es p.2) := by
  obtain ⟨cs, h_load, h_stands⟩ := loadDirectory_stands h_ne h_sized h_texts h_name h_t rest hn
  exact ⟨_, unpacks_of_stands h_load h_stands h_sized rfl, fun p hp h_nlink =>
    serves_iff_resolvable h_stands h_sized h_one hp h_nlink⟩

/-- The file `dir/a` and its other name, which comes first and has no data. -/
def namedTwice : List Entry :=
  [⟨str "b", [], 2, 0x81a4, 0, 0, 2, 0, 8, 1, 0, 0, 0⟩, ⟨str "dir", [], 1, 0x41ed, 0, 0, 2, 0, 8, 1, 0, 0, 0⟩,
    ⟨str "dir/a", str "text\n", 2, 0x81a4, 0, 0, 2, 0, 8, 1, 0, 0, 0⟩]

/-- Two names of an empty file. -/
def emptyTwice : List Entry :=
  [⟨str "a", [], 2, 0x81a4, 0, 0, 2, 0, 8, 1, 0, 0, 0⟩, ⟨str "b", [], 2, 0x81a4, 0, 0, 2, 0, 8, 1, 0, 0, 0⟩]

end GitlstreeFS.Cpio
