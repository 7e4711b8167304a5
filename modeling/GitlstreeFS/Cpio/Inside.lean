import GitlstreeFS.Cpio.Archive
import GitlstreeFS.Cpio.File
import GitlstreeFS.Cpio.Walk

/-!
# Nothing outside the file is read

Nobody compares a length with the size of the mapped file. `Mapped` says for which files everything that is
read is there all the same: each header that the walk comes to is `Present`, and so is what the added files
refer to. `inside_iff` says that these are all.

If the walk ends at the trailer, the contents of each file lie before a header that has been read, so that
`Read` needs no more than the right header. But `Readlink` takes a negative size for a very large one.
-/

namespace GitlstreeFS.Cpio

open Relation

/-! ### Headers that are there -/

/-- The header that is compared with the magic is there, or as much of it as is looked at; and if it is one,
its name is there, and the offsets are `int`s unless it is the trailer. -/
structure Present (m : Str) (c : ℤ) : Prop where
  nonneg : 0 ≤ c
  magic : m.drop c.toNat <+: str "070701" → m.drop c.toNat = str "070701"
  header : str "070701" <+: m.drop c.toNat → ∃ n f, namesize m c = .ok n ∧ filesize m c = .ok f ∧
    1 ≤ n ∧ c + 109 + n ≤ m.length ∧ (fileName m c = .ok trailer ∨ Offsets n f)

variable {m name r : Str} {c c' d n f : ℤ} {b : UInt8} {e : Fault} {loaded loaded' : Loaded}

theorem bytes_one (h : 0 ≤ c) (h_drop : m.drop c.toNat = b :: r) :
    bytes m c 1 = .ok [b] ∧ m.drop (c + 1).toNat = r := by
  have h_length := congrArg List.length h_drop
  rw [List.length_drop, List.length_cons] at h_length
  constructor
  · rw [bytes, if_pos ⟨h, by decide, by omega⟩, h_drop]
    rfl
  · have h_succ : (c + 1).toNat = c.toNat + 1 := by omega
    rw [h_succ, ← List.tail_drop, h_drop, List.tail_cons]

theorem bytes_end (h : m.drop c.toNat = []) : bytes m c 1 = .error .unmapped := by
  rw [List.drop_eq_nil_iff] at h
  exact if_neg fun h_in => absurd h_in.2.2 (by omega)

/-- The loop of `CheckHeader` finds the magic, or runs over the end within it. -/
theorem checkMagic_iff {golden : Str} (h : 0 ≤ c) :
    (checkMagic m c golden = .ok true ↔ golden <+: m.drop c.toNat) ∧
    ((∃ e, checkMagic m c golden = .error e) ↔ m.drop c.toNat <+: golden ∧ m.drop c.toNat ≠ golden) := by
  induction golden generalizing c with
  | nil =>
    refine ⟨iff_of_true rfl (List.nil_prefix), iff_of_false ?_ ?_⟩
    · rintro ⟨_, ⟨⟩⟩
    · rintro ⟨h_pre, h_ne⟩
      exact h_ne (List.prefix_nil.mp h_pre)
  | cons b golden ih =>
    cases h_drop : m.drop c.toNat with
    | nil =>
      have h_load : checkMagic m c (b :: golden) = .error .unmapped := by
        rw [checkMagic, bytes_end h_drop]
        rfl
      rw [h_load]
      refine ⟨iff_of_false (fun h_eq => by cases h_eq) fun h_pre => ?_, iff_of_true ⟨_, rfl⟩ ⟨List.nil_prefix, ?_⟩⟩
      · exact List.cons_ne_nil _ _ (List.prefix_nil.mp h_pre)
      · exact (List.cons_ne_nil _ _).symm
    | cons b' r =>
      obtain ⟨h_bytes, h_rest⟩ := bytes_one h h_drop
      rw [checkMagic, h_bytes, ok_bind]
      by_cases h_eq : b' = b
      · subst h_eq
        rw [if_neg (not_not.mpr rfl), ← h_rest, List.prefix_cons_inj, List.prefix_cons_inj, ne_eq,
          List.cons.injEq, and_iff_right rfl]
        exact ih (by omega)
      · have h_ne : [b'] ≠ [b] := fun h_list => h_eq (List.cons.inj h_list).1
        rw [if_pos h_ne]
        refine ⟨iff_of_false ?_ fun h_pre => ?_, iff_of_false ?_ ?_⟩
        · rintro ⟨⟩
        · exact h_eq (List.cons_prefix_cons.mp h_pre).1.symm
        · rintro ⟨_, ⟨⟩⟩
        · rintro ⟨h_pre, -⟩
          exact h_eq (List.cons_prefix_cons.mp h_pre).1

theorem checkHeader_iff (h : 0 ≤ c) : checkHeader m c = .ok true ↔ str "070701" <+: m.drop c.toNat :=
  (checkMagic_iff h).1

theorem exists_fileName (h_n : namesize m c = .ok n) (h_nonneg : 0 ≤ c) (h_pos : 1 ≤ n)
    (h_le : c + 109 + n ≤ m.length) : ∃ name, fileName m c = .ok name := by
  have h_fits := (fits_of_number h_n).2
  obtain ⟨name, h_name⟩ := bytes_of_mapped (m := m) (c := headerEnd c) (n := n - 1)
    ⟨by unfold headerEnd; omega, by omega, by unfold headerEnd; omega⟩
  refine ⟨name, ?_⟩
  rw [fileName, h_n, ok_bind, int_of_fits ⟨by omega, by omega⟩, ok_bind, h_name]

/-- **A header is there just if the loop does not fail at it.** -/
theorem present_iff : Present m c ↔ checkHeader m c = .ok false ∨
    ∃ name, IsHeader m c name ∧ (name = trailer ∨ ∃ c', next m c = .ok c') := by
  constructor
  · intro h
    cases h_check : checkHeader m c with
    | error e =>
      -- the mapping ends within the magic number, which `Present` excludes
      obtain ⟨h_pre, h_ne⟩ := (checkMagic_iff h.nonneg).2.mp ⟨e, h_check⟩
      exact absurd (h.magic h_pre) h_ne
    | ok found =>
      cases found with
      | false => exact .inl rfl
      | true =>
        -- there is a header, and then all that the loop reads of it is there
        obtain ⟨n, f, h_n, h_f, h_pos, h_le, h_offsets⟩ := h.header ((checkHeader_iff h.nonneg).mp h_check)
        obtain ⟨name, h_name⟩ := exists_fileName h_n h.nonneg h_pos h_le
        refine .inr ⟨name, ⟨h_check, h_name⟩, ?_⟩
        obtain h_trailer | h_offsets := h_offsets
        · exact .inl (Except.ok.inj (h_name.symm.trans h_trailer))
        · exact .inr ⟨_, (next_eq_ok_iff h_n h_f h_pos (fits_of_number h_f)).mpr ⟨h_offsets, rfl⟩⟩
  · rintro (h_check | ⟨name, h, h_next⟩)
    · -- the first character that differs is there
      have h_nonneg : 0 ≤ c := by
        obtain ⟨s, h_s, -⟩ := bind_eq_ok_iff.mp h_check
        exact (mapped_of_bytes h_s).1
      refine ⟨h_nonneg, fun h_pre => ?_, fun h_magic => ?_⟩
      · by_contra h_ne
        obtain ⟨e, h_e⟩ := (checkMagic_iff h_nonneg).2.mpr ⟨h_pre, h_ne⟩
        rw [checkHeader, h_e] at h_check
        cases h_check
      · have h_true := (checkHeader_iff h_nonneg).mpr h_magic
        rw [h_true] at h_check
        cases h_check
    · -- a header that was read has the magic number in full
      obtain ⟨h_nonneg, n, f, h_n, h_f, -, h_fits, h_pos, h_le⟩ := h.spec
      refine ⟨h_nonneg, fun h_pre => ?_, fun _ => ⟨n, f, h_n, h_f, h_pos, h_le, ?_⟩⟩
      · exact h_pre.eq_of_length_le ((checkHeader_iff h_nonneg).mp h.check).length_le
      · obtain rfl | ⟨c', h_next⟩ := h_next
        · exact .inl h.name
        · exact .inr ((next_eq_ok_iff h_n h_f h_pos h_fits).mp h_next).1

theorem fails_iff_not_present : Fails m c ↔ ¬ Present m c := by
  constructor
  · rintro ⟨e, h_e, h_load⟩ h_present
    have h_one := h_load 0 ⟨[], [], []⟩
    obtain h_check | ⟨name, h, h_next⟩ := present_iff.mp h_present
    · rw [load, h_check, ok_bind] at h_one
      cases h_one
    · by_cases h_trailer : name = trailer
      · subst h_trailer
        rw [load_at_trailer h] at h_one
        cases h_one
      · obtain ⟨c', h_next⟩ := h_next.resolve_left h_trailer
        obtain ⟨loaded', h_visit⟩ := exists_visit_of_next h h_next ⟨[], [], []⟩
        rw [load_header h h_trailer, h_visit, ok_bind, h_next, ok_bind] at h_one
        exact h_e (Except.error.inj h_one).symm
  · intro h_not
    obtain h_fails | h_rest := load_cases m c
    · exact h_fails
    · refine absurd (present_iff.mpr ?_) h_not
      obtain ⟨h_check, -⟩ | ⟨h, -⟩ | ⟨name, c', h, -, h_next, -⟩ := h_rest
      · exact .inl h_check
      · exact .inr ⟨_, h, .inl rfl⟩
      · exact .inr ⟨name, h, .inr ⟨c', h_next⟩⟩

/-! ### The walk -/

/-- The loop comes to each header that can be reached. -/
theorem exists_load_of_reached (h : Reached m c) :
    ∃ j loaded, ∀ k, loadDirectory m (k + j) = load m k c loaded := by
  induction h with
  | refl => exact ⟨0, _, fun k => rfl⟩
  | @tail c c' _ h_goes ih =>
    obtain ⟨j, loaded, h_load⟩ := ih
    obtain ⟨name, h, h_ne, h_next⟩ := h_goes
    obtain ⟨loaded', h_visit⟩ := exists_visit_of_next h h_next loaded
    refine ⟨j + 1, loaded', fun k => ?_⟩
    rw [← Nat.add_assoc, Nat.add_right_comm, h_load, load_header h h_ne, h_visit, ok_bind, h_next, ok_bind]

/-- The loop does not fail where all headers are there. -/
theorem load_of_present (h : ∀ c, Reached m c → Present m c) (k : ℕ) (h_c : Reached m c)
    (h_error : load m k c loaded = .error e) : e = .endless := by
  induction k generalizing c loaded with
  | zero => exact (Except.error.inj h_error).symm
  | succ k ih =>
    obtain h_fails | ⟨-, h_load⟩ | ⟨-, h_load⟩ | ⟨name, c', h_header, h_ne, h_next, h_load⟩ := load_cases m c
    · exact absurd (h c h_c) (fails_iff_not_present.mp h_fails)
    · rw [h_load] at h_error
      cases h_error
    · rw [h_load] at h_error
      cases h_error
    · obtain ⟨loaded', -, h_load⟩ := h_load loaded
      rw [h_load] at h_error
      exact ih (h_c.tail ⟨name, h_header, h_ne, h_next⟩) h_error

/-- **The walk reads nothing outside the file just if all headers are there.** -/
theorem walk_iff : (∀ k e, loadDirectory m k = .error e → e = .endless) ↔
    ∀ c, Reached m c → Present m c := by
  constructor
  · intro h c h_c
    by_contra h_not
    obtain ⟨e, h_e, h_load⟩ := fails_iff_not_present.mpr h_not
    obtain ⟨j, loaded, h_start⟩ := exists_load_of_reached h_c
    exact h_e (h (0 + 1 + j) e ((h_start _).trans (h_load 0 loaded)))
  · exact fun h k e h_error => load_of_present h k .refl h_error

/-! ### What the walk leaves behind -/

/-- A header that `fs->add` is called for. -/
structure FileAt (m : Str) (c : ℤ) (name : Str) : Prop where
  header : IsHeader m c name
  ne_trailer : name ≠ trailer
  supported : ∃ k, mode m c = .ok k ∧ isSupported (bits k)

/-- A header with several links, and its key and size. -/
structure LinkAt (m : Str) (c : ℤ) (key : HardlinkKey) (f : ℤ) : Prop where
  major : major m c = .ok key.major
  minor : minor m c = .ok key.minor
  inode : ino m c = .ok key.inode
  several : ∃ k, nlink m c = .ok k ∧ 1 < k
  size : filesize m c = .ok f

variable {key key' : HardlinkKey} {f' : ℤ}

theorem LinkAt.unique (h : LinkAt m c key f) (h' : LinkAt m c key' f') : key = key' ∧ f = f' := by
  obtain ⟨major, minor, inode⟩ := key
  obtain ⟨major', minor', inode'⟩ := key'
  obtain rfl := Except.ok.inj (h.major.symm.trans h'.major)
  obtain rfl := Except.ok.inj (h.minor.symm.trans h'.minor)
  obtain rfl := Except.ok.inj (h.inode.symm.trans h'.inode)
  exact ⟨rfl, Except.ok.inj (h.size.symm.trans h'.size)⟩

/-- A file is added, and assigned to its key if it has contents and several links. -/
theorem addFile_spec (h : addFile m c name loaded = .ok loaded') :
    loaded'.adds = loaded.adds ++ [(slash :: name, c)] ∧
    ∀ y, y ∈ loaded'.hardlinks ↔ y ∈ loaded.hardlinks ∨ (∃ f, LinkAt m c y.1 f ∧ f ≠ 0) ∧ y.2 = c := by
  obtain ⟨major', h_major, h₁⟩ := bind_eq_ok_iff.mp h
  obtain ⟨minor', h_minor, h₂⟩ := bind_eq_ok_iff.mp h₁
  obtain ⟨ino', h_ino, h₃⟩ := bind_eq_ok_iff.mp h₂
  obtain ⟨nlink', h_nlink, h₄⟩ := bind_eq_ok_iff.mp h₃
  obtain ⟨f, h_size, h₅⟩ := bind_eq_ok_iff.mp h₄
  obtain ⟨o, -, h_f⟩ := bind_eq_ok_iff.mp h_size
  split at h₅
  · next h_both =>
    obtain rfl := Except.ok.inj h₅
    have h_link : LinkAt m c ⟨major', minor', ino'⟩ f := ⟨h_major, h_minor, h_ino, ⟨nlink', h_nlink, h_both.1⟩, h_f⟩
    refine ⟨rfl, fun y => List.mem_append.trans (or_congr_right ?_)⟩
    rw [List.mem_singleton]
    constructor
    · rintro rfl
      exact ⟨⟨f, h_link, h_both.2⟩, rfl⟩
    · rintro ⟨⟨f', h_link', -⟩, h_c⟩
      exact Prod.ext (h_link'.unique h_link).1 h_c
  · next h_not =>
    obtain rfl := Except.ok.inj h₅
    refine ⟨rfl, fun y => (or_iff_left ?_).symm⟩
    rintro ⟨⟨f', h_link, h_data⟩, -⟩
    obtain ⟨k, h_k, h_several⟩ := h_link.several
    obtain rfl := Except.ok.inj (h_nlink.symm.trans h_k)
    obtain rfl := Except.ok.inj (h_f.symm.trans h_link.size)
    exact h_not ⟨h_several, h_data⟩

/-- The body of the loop does so for the types that are supported. -/
theorem visit_spec (h : IsHeader m c name) (h_ne : name ≠ trailer)
    (h_visit : visit m c name loaded = .ok loaded') :
    (∀ x, x ∈ loaded'.adds ↔ x ∈ loaded.adds ∨ FileAt m c name ∧ x = (slash :: name, c)) ∧
    ∀ y, y ∈ loaded'.hardlinks ↔ y ∈ loaded.hardlinks ∨
      FileAt m c name ∧ (∃ f, LinkAt m c y.1 f ∧ f ≠ 0) ∧ y.2 = c := by
  obtain ⟨f, h_size, h₁⟩ := bind_eq_ok_iff.mp h_visit
  obtain ⟨k, h_mode, h₂⟩ := bind_eq_ok_iff.mp h₁
  by_cases h_supported : isSupported (bits k) = true
  · have h_file : FileAt m c name := ⟨h, h_ne, k, h_mode, h_supported⟩
    rw [if_pos h_supported] at h₂
    obtain ⟨h_adds, h_hardlinks⟩ := addFile_spec h₂
    refine ⟨fun x => ?_, fun y => ?_⟩
    · rw [h_adds, List.mem_append, List.mem_singleton, and_iff_right h_file]
    · rw [h_hardlinks, and_iff_right h_file]
  · have h_other : ¬ FileAt m c name := by
      intro h_file
      obtain ⟨k', h_k, h_true⟩ := h_file.supported
      obtain rfl := Except.ok.inj (h_mode.symm.trans h_k)
      exact h_supported h_true
    rw [if_neg h_supported] at h₂
    obtain rfl := Except.ok.inj h₂
    exact ⟨fun x => (or_iff_left fun h_both => h_other h_both.1).symm,
      fun y => (or_iff_left fun h_both => h_other h_both.1).symm⟩

/-- From the trailer the loop does not go on. -/
theorem reached_of_trailer (h : IsHeader m c trailer) : ReflTransGen (Goes m) c d ↔ d = c := by
  constructor
  · intro h_reach
    obtain h_eq | ⟨c', ⟨name, h_header, h_ne, -⟩, -⟩ := h_reach.cases_head
    · exact h_eq.symm
    · exact absurd (Except.ok.inj (h_header.name.symm.trans h.name)) h_ne
  · rintro rfl
    exact .refl

/-- From another header it goes to the next. -/
theorem reached_of_next (h : IsHeader m c name) (h_ne : name ≠ trailer) (h_next : next m c = .ok c') :
    ReflTransGen (Goes m) c d ↔ d = c ∨ ReflTransGen (Goes m) c' d := by
  constructor
  · intro h_reach
    obtain h_eq | ⟨c'', ⟨-, -, -, h_next'⟩, h_rest⟩ := h_reach.cases_head
    · exact .inl h_eq.symm
    · obtain rfl := Except.ok.inj (h_next.symm.trans h_next')
      exact .inr h_rest
  · rintro (rfl | h_rest)
    · exact .refl
    · exact .head ⟨name, h, h_ne, h_next⟩ h_rest

/-- A walk that ends at the trailer: behind each header that it comes to there is another one, and the files
are those at the headers. -/
structure Walked (m : Str) (c : ℤ) (loaded loaded' : Loaded) : Prop where
  trailer : ∃ t, ReflTransGen (Goes m) c t ∧ IsHeader m t trailer
  next : ∀ d name, ReflTransGen (Goes m) c d → IsHeader m d name → name ≠ Cpio.trailer →
    ∃ d', next m d = .ok d' ∧ d' ≤ m.length
  adds : ∀ x, x ∈ loaded'.adds ↔ x ∈ loaded.adds ∨
    ∃ d name, ReflTransGen (Goes m) c d ∧ FileAt m d name ∧ x = (slash :: name, d)
  hardlinks : ∀ y, y ∈ loaded'.hardlinks ↔ y ∈ loaded.hardlinks ∨
    ∃ d name, ReflTransGen (Goes m) c d ∧ FileAt m d name ∧ (∃ f, LinkAt m d y.1 f ∧ f ≠ 0) ∧ y.2 = d

theorem exists_header (h : ReflTransGen (Goes m) c d) (h_trailer : IsHeader m d trailer) :
    ∃ name, IsHeader m c name := by
  obtain rfl | ⟨c', ⟨name, h_header, -, -⟩, -⟩ := h.cases_head
  · exact ⟨_, h_trailer⟩
  · exact ⟨name, h_header⟩

theorem IsHeader.unique {name' : Str} (h : IsHeader m c name) (h' : IsHeader m c name') : name = name' :=
  Except.ok.inj (h.name.symm.trans h'.name)

/-- What holds of the header at `c`, or of one behind it. -/
theorem exists_reached_iff {P : ℤ → Str → Prop} (h : IsHeader m c name) (h_ne : name ≠ trailer)
    (h_next : next m c = .ok c') : (∃ d name, ReflTransGen (Goes m) c d ∧ FileAt m d name ∧ P d name) ↔
      FileAt m c name ∧ P c name ∨ ∃ d name, ReflTransGen (Goes m) c' d ∧ FileAt m d name ∧ P d name := by
  constructor
  · rintro ⟨d, name', h_reach, h_file, h_P⟩
    obtain rfl | h_rest := (reached_of_next h h_ne h_next).mp h_reach
    · obtain rfl := h.unique h_file.header
      exact .inl ⟨h_file, h_P⟩
    · exact .inr ⟨d, name', h_rest, h_file, h_P⟩
  · rintro (⟨h_file, h_P⟩ | ⟨d, name', h_rest, h_file, h_P⟩)
    · exact ⟨c, name, .refl, h_file, h_P⟩
    · exact ⟨d, name', (reached_of_next h h_ne h_next).mpr (.inr h_rest), h_file, h_P⟩

theorem walked_of_load (k : ℕ) (h : load m k c loaded = .ok (true, loaded')) : Walked m c loaded loaded' := by
  induction k generalizing c loaded with
  | zero => cases h
  | succ k ih =>
    obtain ⟨e, -, h_load⟩ | ⟨-, h_load⟩ | ⟨h_trailer, h_load⟩ | ⟨name, c', h_header, h_ne, h_next, h_load⟩ :=
      load_cases m c
    · rw [h_load] at h
      cases h
    · rw [h_load] at h
      cases h
    · rw [h_load] at h
      obtain rfl := (Prod.mk.inj (Except.ok.inj h)).2
      -- at the trailer: nothing is reached from there but itself
      have h_none {d : ℤ} {name : Str} (h_reach : ReflTransGen (Goes m) c d) (h_d : IsHeader m d name)
          (h_ne : name ≠ Cpio.trailer) : False := by
        obtain rfl := (reached_of_trailer h_trailer).mp h_reach
        exact h_ne (Except.ok.inj (h_d.name.symm.trans h_trailer.name))
      refine ⟨⟨c, .refl, h_trailer⟩, fun d name h_reach h_d h_ne => (h_none h_reach h_d h_ne).elim,
        fun x => (or_iff_left ?_).symm, fun y => (or_iff_left ?_).symm⟩
      · rintro ⟨d, name, h_reach, h_file, -⟩
        exact h_none h_reach h_file.header h_file.ne_trailer
      · rintro ⟨d, name, h_reach, h_file, -⟩
        exact h_none h_reach h_file.header h_file.ne_trailer
    · -- at another header: what it adds comes before what the rest of the walk does
      obtain ⟨loaded₁, h_visit, h_load⟩ := h_load loaded
      rw [h_load] at h
      have h_walked := ih h
      obtain ⟨h_adds, h_hardlinks⟩ := visit_spec h_header h_ne h_visit
      obtain ⟨t, h_t, h_trailer⟩ := h_walked.trailer
      refine ⟨⟨t, (reached_of_next h_header h_ne h_next).mpr (.inr h_t), h_trailer⟩,
        fun d name' h_reach h_d h_ne' => ?_, fun x => ?_, fun y => ?_⟩
      · obtain rfl | h_rest := (reached_of_next h_header h_ne h_next).mp h_reach
        · obtain ⟨name₁, h_c'⟩ := exists_header h_t h_trailer
          obtain ⟨-, n, f, -, -, -, -, h_pos, h_le⟩ := h_c'.spec
          exact ⟨c', h_next, by omega⟩
        · exact h_walked.next d name' h_rest h_d h_ne'
      · rw [h_walked.adds, h_adds, or_assoc]
        exact or_congr_right (exists_reached_iff (P := fun d name => x = (slash :: name, d)) h_header h_ne h_next).symm
      · rw [h_walked.hardlinks, h_hardlinks, or_assoc]
        exact or_congr_right (exists_reached_iff
          (P := fun d _ => (∃ f, LinkAt m d y.1 f ∧ f ≠ 0) ∧ y.2 = d) h_header h_ne h_next).symm

/-! ### What the files read -/

/-- Nothing goes wrong, but an assertion that fails. -/
def Inside {α : Type} (r : Except FileFault α) : Prop :=
  ∀ e, r = .error e → e = .assertion

theorem inside_ok {α : Type} (a : α) : Inside (.ok a : Except FileFault α) := by
  rintro e ⟨⟩

/-- **The contents lie before the next header.** -/
theorem contentsView_spec (h : IsHeader m c name) (h_next : next m c = .ok c') (h_le : c' ≤ m.length)
    (h_f : filesize m c = .ok f) : ∃ a : ℤ, contentsView m c = .ok (a, (f % 0x10000000000000000).toNat) ∧
      0 ≤ a ∧ a + f ≤ m.length := by
  obtain ⟨h_nonneg, n, f', h_n, h_f', -, h_fits, h_pos, -⟩ := h.spec
  obtain rfl := Except.ok.inj (h_f.symm.trans h_f')
  obtain ⟨h_offsets, rfl⟩ := (next_eq_ok_iff h_n h_f h_pos h_fits).mp h_next
  refine ⟨headerEnd c + (ceil4 (n + 2) - 2), ?_, ?_, ?_⟩
  · rw [contentsView, contentsOffset_of_lt h_n h_pos h_offsets.name, ok_bind, h_f, ok_bind]
    rfl
  · unfold headerEnd ceil4
    omega
  · unfold headerEnd ceil4 at *
    omega

/-- What is copied from contents that are there is there. -/
theorem inside_copy {a : ℤ} {k : ℕ} (h_nonneg : 0 ≤ a) (h_le : a + k ≤ m.length) (size : ℕ) {pos : ℕ}
    (h_pos : pos ≤ k) : Inside (lift (copy m (a, k) size pos)) := by
  have h_min : min size (k - pos) ≤ k - pos := Nat.min_le_right _ _
  have h_mapped : 0 ≤ a + pos ∧ 0 ≤ ((min size (k - pos) : ℕ) : ℤ) ∧
      a + pos + ((min size (k - pos) : ℕ) : ℤ) ≤ m.length :=
    ⟨by omega, Int.natCast_nonneg _, by omega⟩
  obtain ⟨s, h_s⟩ := bytes_of_mapped h_mapped
  rw [copy, h_s]
  exact inside_ok s

/-- The size as a `size_t`, and as the `off_t` that this is converted to. -/
theorem size_spec (h_fits : Fits f) : (0 ≤ f → ((f % 0x10000000000000000).toNat : ℤ) = f) ∧
    (f < 0 → ((f % 0x10000000000000000).toNat : ℤ) = f + 0x10000000000000000) ∧
    ((f % 0x10000000000000000).toNat : ℤ).bmod 0x10000000000000000 = f := by
  unfold Fits at h_fits
  refine ⟨fun h => by omega, fun h => by omega, ?_⟩
  have h_nonneg : 0 ≤ f % 0x10000000000000000 := Int.emod_nonneg f (by decide)
  rw [Int.toNat_of_nonneg h_nonneg]
  have h_mod := Int.emod_bmod f 0x10000000000000000
  exact h_mod.trans (Int.bmod_eq_of_le (by omega) (by omega))

/-- **A read from a header that is there is inside**, whatever its size is. -/
theorem inside_read (h : IsHeader m d name) (h_next : next m d = .ok c') (h_le : c' ≤ m.length)
    {hardlinks : List (HardlinkKey × ℤ)} (h_resolve : resolveHardlink m hardlinks c = .ok d) (size offset : ℕ) :
    Inside (read m hardlinks c size offset) := by
  obtain ⟨-, n, f, -, h_f, -, h_fits, -⟩ := h.spec
  obtain ⟨h_size, -, h_off⟩ := size_spec h_fits
  obtain ⟨a, h_view, h_nonneg, h_end⟩ := contentsView_spec h h_next h_le h_f
  rw [read, h_resolve, ok_bind, h_view, lift, ok_bind]
  split
  · -- then the size is not negative
    next h_lt =>
    rw [h_off] at h_lt
    have h_k := h_size (by omega)
    have h_inside (size : ℕ) : Inside (lift (copy m (a, (f % 0x10000000000000000).toNat) size offset)) :=
      inside_copy h_nonneg (by omega) size (by omega)
    exact h_inside _
  · exact inside_ok _

/-- `Readlink` stays inside just if the size is not negative. -/
theorem inside_readlink_iff (h : IsHeader m c name) (h_next : next m c = .ok c') (h_le : c' ≤ m.length)
    (h_f : filesize m c = .ok f) (h_length : m.length < 0x8000000000000000) :
    (∀ size < 0x10000000000000000, Inside (readlink m c size)) ↔ 0 ≤ f := by
  have h_fits := fits_of_number h_f
  obtain ⟨h_size, h_large, -⟩ := size_spec h_fits
  obtain ⟨a, h_view, h_nonneg, h_end⟩ := contentsView_spec h h_next h_le h_f
  have h_readlink (size : ℕ) : readlink m c size = lift (copy m (a, (f % 0x10000000000000000).toNat)
      (if (f % 0x10000000000000000).toNat < size then (f % 0x10000000000000000).toNat else size) 0) := by
    rw [readlink, h_view, lift, ok_bind]
  constructor
  · intro h_inside
    by_contra h_neg
    have h_k := h_large (not_le.mp h_neg)
    unfold Fits at h_fits
    -- more than the whole file
    have h_not : ¬ (f % 0x10000000000000000).toNat < m.length + 1 := by omega
    have h_error : readlink m c (m.length + 1) = .error (.fault .unmapped) := by
      have h_min : min (m.length + 1) ((f % 0x10000000000000000).toNat - 0) = m.length + 1 :=
        Nat.min_eq_left (by omega)
      rw [h_readlink, if_neg h_not, copy, h_min, bytes, if_neg fun h_in => absurd h_in.2.2 (by push_cast; omega)]
      rfl
    cases h_inside (m.length + 1) (by omega) _ h_error
  · intro h_pos size _
    have h_k := h_size h_pos
    rw [h_readlink]
    exact inside_copy h_nonneg (by omega) _ (Nat.zero_le _)

/-! ### Hard links -/

variable {hardlinks : List (HardlinkKey × ℤ)}

theorem hardlinkTarget_eq_ok_iff : (∃ d, hardlinkTarget hardlinks key = .ok d) ↔
    Ordered (key :: hardlinks.map Prod.fst) ∧ key ∈ hardlinks.map Prod.fst := by
  have h_found : (hardlinks.reverse.lookup key).isSome ↔ key ∈ hardlinks.map Prod.fst := by
    rw [List.lookup_isSome_iff, List.mem_map]
    constructor
    · rintro ⟨y, h_mem, h_eq⟩
      exact ⟨y, List.mem_reverse.mp h_mem, (beq_iff_eq.mp h_eq).symm⟩
    · rintro ⟨y, h_mem, rfl⟩
      exact ⟨y, List.mem_reverse.mpr h_mem, beq_self_eq_true _⟩
  rw [hardlinkTarget]
  split
  · next h_ordered =>
    rw [and_iff_right h_ordered, ← h_found]
    cases hardlinks.reverse.lookup key with
    | none => exact iff_of_false (by rintro ⟨_, ⟨⟩⟩) Bool.false_ne_true
    | some d => exact iff_of_true ⟨d, rfl⟩ rfl
  · next h_not => exact iff_of_false (by rintro ⟨_, ⟨⟩⟩) fun h => h_not h.1

/-- What is found has been assigned. -/
theorem mem_of_hardlinkTarget (h : hardlinkTarget hardlinks key = .ok d) : (key, d) ∈ hardlinks := by
  rw [hardlinkTarget] at h
  split at h
  · split at h
    · next c h_c =>
      obtain rfl := Except.ok.inj h
      obtain ⟨l₁, l₂, h_eq, -⟩ := List.lookup_eq_some_iff.mp h_c
      rw [← List.mem_reverse, h_eq]
      exact List.mem_append_right _ List.mem_cons_self
    · cases h
  · cases h

theorem error_of_hardlinkTarget {e : FileFault} (h : hardlinkTarget hardlinks key = .error e) :
    e ≠ .assertion := by
  rw [hardlinkTarget] at h
  split at h
  · split at h
    · cases h
    · rw [← Except.error.inj h]
      decide
  · rw [← Except.error.inj h]
    decide

/-- `Contents().size()` at a header with a next one. -/
theorem contentsSize_of_next (h : IsHeader m c name) (h_next : next m c = .ok c') (h_f : filesize m c = .ok f) :
    contentsSize m c = .ok f := by
  obtain ⟨-, n, f', h_n, h_f', -, h_fits, h_pos, -⟩ := h.spec
  have h_offsets := ((next_eq_ok_iff h_n h_f' h_pos h_fits).mp h_next).1
  rw [contentsSize, contentsOffset_of_lt h_n h_pos h_offsets.name]
  exact h_f

/-- A file without contents of its own resolves to what the map has under its key. -/
theorem resolveHardlink_link (h : IsHeader m c name) (h_next : next m c = .ok c') (h_link : LinkAt m c key 0) :
    resolveHardlink m hardlinks c = hardlinkTarget hardlinks key := by
  obtain ⟨k, h_k, h_several⟩ := h_link.several
  have h_ne : ¬ k = 1 := by omega
  rw [resolveHardlink, h_k, lift, ok_bind, if_neg h_ne, if_pos h_several,
    contentsSize_of_next h h_next h_link.size, lift, ok_bind, if_pos rfl, h_link.major, lift, ok_bind, h_link.minor,
    lift, ok_bind, h_link.inode, lift, ok_bind]

/-- Every other one resolves to itself, unless it has no links at all. -/
theorem resolveHardlink_self (h : IsHeader m c name) (h_next : next m c = .ok c')
    (h_no : ∀ key, ¬ LinkAt m c key 0) : resolveHardlink m hardlinks c = .ok c ∨
      resolveHardlink m hardlinks c = .error .assertion := by
  obtain ⟨h_nonneg, n, f, -, h_f, -, -, h_pos, h_le⟩ := h.spec
  have h_number {i : ℕ} (h_i : i < 13) : ∃ x, number m c i = .ok x ∧ Fits x :=
    exists_number h_nonneg (by omega) h_i
  obtain ⟨k, h_k, -⟩ := h_number (i := 4) (by decide)
  obtain ⟨inode, h_ino, -⟩ := h_number (i := 0) (by decide)
  obtain ⟨major', h_major, -⟩ := h_number (i := 7) (by decide)
  obtain ⟨minor', h_minor, -⟩ := h_number (i := 8) (by decide)
  rw [resolveHardlink, nlink, h_k, lift, ok_bind]
  split
  · exact .inl rfl
  · split
    · next h_several =>
      have h_data : f ≠ 0 := by
        rintro rfl
        exact h_no ⟨major', minor', inode⟩ ⟨h_major, h_minor, h_ino, ⟨k, h_k, h_several⟩, h_f⟩
      rw [contentsSize_of_next h h_next h_f, lift, ok_bind, if_neg h_data]
      exact .inl rfl
    · exact .inr rfl

/-- **A file can be read just if the map has the header it looks for.** -/
theorem inside_read_iff (h : IsHeader m c name) (h_next : next m c = .ok c') (h_le : c' ≤ m.length)
    (h_targets : ∀ y ∈ hardlinks, ∃ name d', IsHeader m y.2 name ∧ next m y.2 = .ok d' ∧ d' ≤ m.length) :
    (∀ size < 0x10000000000000000, ∀ offset < 0x8000000000000000, Inside (read m hardlinks c size offset)) ↔
      ∀ key, LinkAt m c key 0 → Ordered (key :: hardlinks.map Prod.fst) ∧ key ∈ hardlinks.map Prod.fst := by
  constructor
  · intro h_inside key h_link
    rw [← hardlinkTarget_eq_ok_iff]
    cases h_target : hardlinkTarget hardlinks key with
    | ok d => exact ⟨d, rfl⟩
    | error e =>
      have h_error : read m hardlinks c 0 0 = .error e := by
        rw [read, resolveHardlink_link h h_next h_link, h_target]
        rfl
      exact absurd (h_inside 0 (by decide) 0 (by decide) e h_error) (error_of_hardlinkTarget h_target)
  · intro h_keys size _ offset _
    by_cases h_link : ∃ key, LinkAt m c key 0
    · obtain ⟨key, h_link⟩ := h_link
      obtain ⟨d, h_target⟩ := hardlinkTarget_eq_ok_iff.mpr (h_keys key h_link)
      obtain ⟨name', d', h_d, h_next', h_le'⟩ := h_targets _ (mem_of_hardlinkTarget h_target)
      exact inside_read h_d h_next' h_le' ((resolveHardlink_link h h_next h_link).trans h_target) size offset
    · have h_cases : resolveHardlink m hardlinks c = .ok c ∨ resolveHardlink m hardlinks c = .error .assertion :=
        resolveHardlink_self h h_next (not_exists.mp h_link)
      obtain h_self | h_assertion := h_cases
      · exact inside_read h h_next h_le h_self size offset
      · rw [read, h_assertion]
        rintro e ⟨⟩
        rfl

/-! ### All that is read -/

/-- Nothing outside the file is read: not by `LoadDirectory`, and not by the files that it has added, if it
returns `true`. (If it does not, the process ends.) -/
structure StaysInside (m : Str) : Prop where
  walk : ∀ k e, loadDirectory m k = .error e → e = .endless
  read : ∀ k loaded, loadDirectory m k = .ok (true, loaded) → ∀ x ∈ loaded.adds,
    ∀ size < 0x10000000000000000, ∀ offset < 0x8000000000000000,
      Inside (read m loaded.hardlinks x.2 size offset)
  readlink : ∀ k loaded, loadDirectory m k = .ok (true, loaded) → ∀ x ∈ loaded.adds,
    ∀ size < 0x10000000000000000, Inside (readlink m x.2 size)

/-- The walk ends at the trailer. -/
def Trailed (m : Str) : Prop :=
  ∃ t, Reached m t ∧ IsHeader m t trailer

/-- A key with contents. -/
def Stored (m : Str) (key : HardlinkKey) : Prop :=
  ∃ c name f, Reached m c ∧ FileAt m c name ∧ LinkAt m c key f ∧ f ≠ 0

/-- The headers are there; and if the walk ends at the trailer, no file has a negative size, and for each
that has links but no contents there are some under its key, with keys that are ordered. -/
structure Mapped (m : Str) : Prop where
  present : ∀ c, Reached m c → Present m c
  sizes : Trailed m → ∀ c name f, Reached m c → FileAt m c name → filesize m c = .ok f → 0 ≤ f
  links : Trailed m → ∀ c name key, Reached m c → FileAt m c name → LinkAt m c key 0 →
    Stored m key ∧ ∀ a b, Stored m a → Stored m b → ¬ (a.lt b ∧ b.lt a)

theorem Walked.mem_adds_iff (h : Walked m 0 ⟨[], [], []⟩ loaded) (x : Str × ℤ) : x ∈ loaded.adds ↔
    ∃ d name, Reached m d ∧ FileAt m d name ∧ x = (slash :: name, d) := by
  rw [h.adds, or_iff_right List.not_mem_nil]
  rfl

theorem Walked.stored_iff (h : Walked m 0 ⟨[], [], []⟩ loaded) :
    key ∈ loaded.hardlinks.map Prod.fst ↔ Stored m key := by
  rw [List.mem_map]
  constructor
  · rintro ⟨y, h_mem, rfl⟩
    obtain h_none | ⟨d, name, h_reach, h_file, ⟨f, h_link, h_f⟩, -⟩ := (h.hardlinks y).mp h_mem
    · exact absurd h_none List.not_mem_nil
    · exact ⟨d, name, f, h_reach, h_file, h_link, h_f⟩
  · rintro ⟨d, name, f, h_reach, h_file, h_link, h_f⟩
    exact ⟨(key, d), (h.hardlinks _).mpr (.inr ⟨d, name, h_reach, h_file, ⟨f, h_link, h_f⟩, rfl⟩), rfl⟩

theorem Walked.ordered_iff (h : Walked m 0 ⟨[], [], []⟩ loaded) (h_key : Stored m key) :
    Ordered (key :: loaded.hardlinks.map Prod.fst) ↔
      ∀ a b, Stored m a → Stored m b → ¬ (a.lt b ∧ b.lt a) := by
  have h_mem (a : HardlinkKey) : a ∈ key :: loaded.hardlinks.map Prod.fst ↔ Stored m a := by
    rw [List.mem_cons, h.stored_iff]
    constructor
    · rintro (rfl | h_a)
      · exact h_key
      · exact h_a
    · exact .inr
  constructor
  · intro h_ordered a b h_a h_b
    exact h_ordered a ((h_mem a).mpr h_a) b ((h_mem b).mpr h_b)
  · intro h_all a h_a b h_b
    exact h_all a b ((h_mem a).mp h_a) ((h_mem b).mp h_b)

theorem Walked.targets (h : Walked m 0 ⟨[], [], []⟩ loaded) :
    ∀ y ∈ loaded.hardlinks, ∃ name d', IsHeader m y.2 name ∧ Cpio.next m y.2 = .ok d' ∧ d' ≤ m.length := by
  intro y h_y
  obtain h_none | ⟨d, name, h_reach, h_file, -, h_d⟩ := (h.hardlinks y).mp h_y
  · exact absurd h_none List.not_mem_nil
  · obtain ⟨d', h_next, h_le⟩ := h.next d name h_reach h_file.header h_file.ne_trailer
    rw [h_d]
    exact ⟨name, d', h_file.header, h_next, h_le⟩

theorem Mapped.staysInside (h : Mapped m) (h_length : m.length < 0x8000000000000000) : StaysInside m := by
  refine ⟨walk_iff.mpr h.present, fun k loaded h_load x h_x => ?_, fun k loaded h_load x h_x => ?_⟩
  · have h_walked := walked_of_load k h_load
    obtain ⟨d, name, h_reach, h_file, rfl⟩ := (h_walked.mem_adds_iff x).mp h_x
    obtain ⟨d', h_next, h_le⟩ := h_walked.next d name h_reach h_file.header h_file.ne_trailer
    refine (inside_read_iff h_file.header h_next h_le h_walked.targets).mpr fun key h_link => ?_
    obtain ⟨h_stored, h_ordered⟩ := h.links h_walked.trailer d name key h_reach h_file h_link
    exact ⟨(h_walked.ordered_iff h_stored).mpr h_ordered, h_walked.stored_iff.mpr h_stored⟩
  · have h_walked := walked_of_load k h_load
    obtain ⟨d, name, h_reach, h_file, rfl⟩ := (h_walked.mem_adds_iff x).mp h_x
    obtain ⟨d', h_next, h_le⟩ := h_walked.next d name h_reach h_file.header h_file.ne_trailer
    obtain ⟨-, n, f, -, h_f, -⟩ := h_file.header.spec
    exact (inside_readlink_iff h_file.header h_next h_le h_f h_length).mpr
      (h.sizes h_walked.trailer d name f h_reach h_file h_f)

/-- If the walk can end at the trailer, it does. -/
theorem Trailed.exists_load (h : Trailed m) : ∃ k loaded, loadDirectory m k = .ok (true, loaded) := by
  obtain ⟨t, h_reach, h_trailer⟩ := h
  obtain ⟨j, loaded, h_load⟩ := exists_load_of_reached h_reach
  exact ⟨_, loaded, (h_load (0 + 1)).trans (load_at_trailer h_trailer 0 loaded)⟩

theorem StaysInside.mapped (h : StaysInside m) (h_length : m.length < 0x8000000000000000) : Mapped m := by
  refine ⟨walk_iff.mp h.walk, fun h_trailed d name f h_reach h_file h_f => ?_,
    fun h_trailed d name key h_reach h_file h_link => ?_⟩
  · obtain ⟨k, loaded, h_load⟩ := h_trailed.exists_load
    have h_walked := walked_of_load k h_load
    obtain ⟨d', h_next, h_le⟩ := h_walked.next d name h_reach h_file.header h_file.ne_trailer
    have h_x : (slash :: name, d) ∈ loaded.adds := (h_walked.mem_adds_iff _).mpr ⟨d, name, h_reach, h_file, rfl⟩
    have h_inside (size : ℕ) (h_size : size < 0x10000000000000000) : Inside (Cpio.readlink m d size) :=
      h.readlink k loaded h_load _ h_x size h_size
    exact (inside_readlink_iff h_file.header h_next h_le h_f h_length).mp h_inside
  · obtain ⟨k, loaded, h_load⟩ := h_trailed.exists_load
    have h_walked := walked_of_load k h_load
    obtain ⟨d', h_next, h_le⟩ := h_walked.next d name h_reach h_file.header h_file.ne_trailer
    have h_x : (slash :: name, d) ∈ loaded.adds := (h_walked.mem_adds_iff _).mpr ⟨d, name, h_reach, h_file, rfl⟩
    have h_inside (size : ℕ) (h_size : size < 0x10000000000000000) (offset : ℕ)
        (h_offset : offset < 0x8000000000000000) : Inside (Cpio.read m loaded.hardlinks d size offset) :=
      h.read k loaded h_load _ h_x size h_size offset h_offset
    obtain ⟨h_ordered, h_mem⟩ :=
      (inside_read_iff h_file.header h_next h_le h_walked.targets).mp h_inside key h_link
    have h_stored := h_walked.stored_iff.mp h_mem
    exact ⟨h_stored, (h_walked.ordered_iff h_stored).mp h_ordered⟩

/-- A file without data, a directory, and the name of the file that carries its data. -/
def archivedEntries : List Entry :=
  [⟨str "b", [], 2, 0x81a4, 0, 0, 2, 0, 8, 1, 0, 0, 0⟩, ⟨str "dir", [], 3, 0x41ed, 0, 0, 1, 0, 8, 1, 0, 0, 0⟩,
    ⟨str "dir/a", str "text\n", 2, 0x81a4, 0, 0, 2, 0, 8, 1, 0, 0, 0⟩]

def linkedArchive : Str :=
  (archivedEntries.map Entry.encode).flatten ++ lastEntry.encode

theorem linkedArchive_header : IsHeader linkedArchive 0 (str "b") ∧ IsHeader linkedArchive 112 (str "dir") ∧
    IsHeader linkedArchive 228 (str "dir/a") ∧ IsHeader linkedArchive 352 trailer := by
  have h_headers : ∀ x ∈ [(0, str "b"), (112, str "dir"), (228, str "dir/a"), (352, trailer)],
      checkHeader linkedArchive x.1 = .ok true ∧ fileName linkedArchive x.1 = .ok x.2 := by
    decide +kernel
  simp only [List.forall_mem_cons] at h_headers
  obtain ⟨h_file, h_directory, h_data, h_trailer, -⟩ := h_headers
  exact ⟨⟨h_file.1, h_file.2⟩, ⟨h_directory.1, h_directory.2⟩, ⟨h_data.1, h_data.2⟩, ⟨h_trailer.1, h_trailer.2⟩⟩

theorem linkedArchive_next :
    next linkedArchive 0 = .ok 112 ∧ next linkedArchive 112 = .ok 228 ∧ next linkedArchive 228 = .ok 352 := by
  decide +kernel

theorem reached_linkedArchive {c : ℤ} :
    Reached linkedArchive c ↔ c = 0 ∨ c = 112 ∨ c = 228 ∨ c = 352 := by
  obtain ⟨h_file, h_directory, h_data, h_trailer⟩ := linkedArchive_header
  obtain ⟨h_next, h_next', h_next''⟩ := linkedArchive_next
  rw [Reached, reached_of_next h_file (by decide) h_next, reached_of_next h_directory (by decide) h_next',
    reached_of_next h_data (by decide) h_next'', reached_of_trailer h_trailer]

theorem linkedArchive_links : LinkAt linkedArchive 0 ⟨8, 1, 2⟩ 0 ∧ LinkAt linkedArchive 228 ⟨8, 1, 2⟩ 5 := by
  have h_numbers : ∀ x ∈ [(0, 0), (228, 5)], major linkedArchive x.1 = .ok 8 ∧ minor linkedArchive x.1 = .ok 1 ∧
      ino linkedArchive x.1 = .ok 2 ∧ nlink linkedArchive x.1 = .ok 2 ∧
      filesize linkedArchive x.1 = .ok x.2 := by
    decide +kernel
  simp only [List.forall_mem_cons] at h_numbers
  obtain ⟨⟨h_major, h_minor, h_ino, h_nlink, h_size⟩, h_data, -⟩ := h_numbers
  obtain ⟨h_major', h_minor', h_ino', h_nlink', h_size'⟩ := h_data
  exact ⟨⟨h_major, h_minor, h_ino, ⟨2, h_nlink, by decide⟩, h_size⟩,
    ⟨h_major', h_minor', h_ino', ⟨2, h_nlink', by decide⟩, h_size'⟩⟩

/-- There is one key, and it has data in one place. -/
theorem linkAt_linkedArchive {c f : ℤ} {key : HardlinkKey} (h : Reached linkedArchive c)
    (h_link : LinkAt linkedArchive c key f) : key = ⟨8, 1, 2⟩ ∧ (f ≠ 0 → c = 228 ∧ f = 5) := by
  obtain ⟨h_file, h_data⟩ := linkedArchive_links
  have h_one : nlink linkedArchive 112 = .ok 1 ∧ nlink linkedArchive 352 = .ok 1 := by decide +kernel
  have h_single {c : ℤ} (h_c : nlink linkedArchive c = .ok 1) (h_link : LinkAt linkedArchive c key f) :
      False := by
    obtain ⟨k, h_k, h_several⟩ := h_link.several
    obtain rfl := Except.ok.inj (h_c.symm.trans h_k)
    exact absurd h_several (by decide)
  obtain rfl | rfl | rfl | rfl := reached_linkedArchive.mp h
  · obtain ⟨rfl, rfl⟩ := h_link.unique h_file
    exact ⟨rfl, fun h_ne => absurd rfl h_ne⟩
  · exact (h_single h_one.1 h_link).elim
  · obtain ⟨rfl, rfl⟩ := h_link.unique h_data
    exact ⟨rfl, fun _ => ⟨rfl, rfl⟩⟩
  · exact (h_single h_one.2 h_link).elim

theorem linkedArchive_mapped : Mapped linkedArchive := by
  obtain ⟨h_file, h_directory, h_data, h_trailer⟩ := linkedArchive_header
  obtain ⟨h_next, h_next', h_next''⟩ := linkedArchive_next
  refine ⟨fun c h => ?_, fun _ c name f h _ h_size => ?_, fun _ c name key h _ h_link => ?_⟩
  · rw [present_iff]
    obtain rfl | rfl | rfl | rfl := reached_linkedArchive.mp h
    · exact .inr ⟨_, h_file, .inr ⟨_, h_next⟩⟩
    · exact .inr ⟨_, h_directory, .inr ⟨_, h_next'⟩⟩
    · exact .inr ⟨_, h_data, .inr ⟨_, h_next''⟩⟩
    · exact .inr ⟨_, h_trailer, .inl rfl⟩
  · have h_sizes : filesize linkedArchive 0 = .ok 0 ∧ filesize linkedArchive 112 = .ok 0 ∧
        filesize linkedArchive 228 = .ok 5 ∧ filesize linkedArchive 352 = .ok 0 := by
      decide +kernel
    obtain ⟨h_0, h_112, h_228, h_352⟩ := h_sizes
    obtain rfl | rfl | rfl | rfl := reached_linkedArchive.mp h
    · exact (Except.ok.inj (h_0.symm.trans h_size)).le
    · exact (Except.ok.inj (h_112.symm.trans h_size)).le
    · obtain rfl := Except.ok.inj (h_228.symm.trans h_size)
      decide
    · exact (Except.ok.inj (h_352.symm.trans h_size)).le
  · -- the data is in the second file
    obtain ⟨rfl, -⟩ := linkAt_linkedArchive h h_link
    have h_mode : mode linkedArchive 228 = .ok 0x81a4 := by decide +kernel
    refine ⟨⟨228, _, 5, reached_linkedArchive.mpr (.inr (.inr (.inl rfl))),
      ⟨h_data, by decide, _, h_mode, by decide⟩, linkedArchive_links.2, by decide⟩, ?_⟩
    rintro a b ⟨c, name, f, h_c, -, h_a, -⟩ ⟨c', name', f', h_c', -, h_b, -⟩
    rw [(linkAt_linkedArchive h_c h_a).1, (linkAt_linkedArchive h_c' h_b).1]
    decide

end GitlstreeFS.Cpio
