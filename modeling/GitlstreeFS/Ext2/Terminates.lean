import GitlstreeFS.Effect.Acyclic
import GitlstreeFS.Ext2.Tree
import Mathlib.Data.Int.Interval
import Mathlib.Data.Finite.Prod

/-!
# When `WalkDir` comes to its end

The walk goes from a directory entry to the next one, and to the first entry of a subdirectory; behind that
it goes on only if the walk over the subdirectory comes back. What it finds at an entry is `look`, which
leaves out everything that has no influence on where the walk goes. `loadDirectory_ends_iff` says for every
image whether the walk from the root ends.

* `walk_of_not_ending`: as `walkFrom` is bounded, not to end is to hit every bound.
* `ends_iff_ending`: a walk ends just if the search over the places that it comes to does.
* There are finitely many of these, so that this is a matter of not coming back
  (`Effect.Acyclic.ending_iff_neverBack`): neither from an entry to itself, which has length zero then, nor
  from a directory to an entry for it.
-/

namespace GitlstreeFS.Ext2

open Effect.Acyclic (Ending NeverBack)
open Relation (ReflTransGen TransGen)

variable {reader : Ext2Reader} {α β : Type}

/-! ### Errors -/

/-- This is not the bound that was too small. -/
def Ended (x : Except Fault α) : Prop :=
  x ≠ .error .endless

theorem ended_ok (a : α) : Ended (.ok a) := fun h => by
  cases h

/-- An error of one kind of result is the same of another. -/
theorem Ended.error {x : Except Fault α} {e : Fault} (h : Ended x) (h_e : x = .error e) :
    Ended (.error e : Except Fault β) := by
  subst h_e
  exact fun h_eq => h (congrArg _ (Except.error.inj h_eq))

theorem Ended.bind {x : Except Fault α} {f : α → Except Fault β} (h : Ended x) (h_f : ∀ a, Ended (f a)) :
    Ended (x >>= f) := by
  cases x with
  | error e => exact h.error rfl
  | ok a => exact h_f a

theorem ended_bytes (m : Str) (c : ℤ) (n : ℕ) : Ended (bytes m c n) := by
  rw [bytes]
  split
  · exact ended_ok _
  · exact fun h => by cases h

theorem ended_le32 (m : Str) (c : ℤ) : Ended (le32 m c) :=
  (ended_bytes m c 4).bind fun _ => ended_ok _

theorem ended_le16 (m : Str) (c : ℤ) : Ended (le16 m c) :=
  (ended_bytes m c 2).bind fun _ => ended_ok _

theorem ended_filename (m : Str) (c : ℤ) : Ended (filename m c) :=
  ((ended_bytes m (c + 6) 1).bind fun _ => ended_ok _).bind fun _ => ended_bytes m _ _

theorem ended_next (m : Str) (c : ℤ) : Ended (next m c) :=
  (ended_le16 m _).bind fun _ => ended_ok _

theorem ended_int (n : ℤ) : Ended (int n) := by
  rw [int]
  split
  · exact ended_ok _
  · exact fun h => by cases h

theorem ended_inodeOf (reader : Ext2Reader) (n : ℕ) : Ended (inodeOf reader n) := by
  refine (ended_int _).bind fun k => ?_
  dsimp only
  split
  · exact fun h => by cases h
  · exact ((ended_int _).bind fun _ => ended_le32 _ _).bind fun _ => ended_ok _

theorem ended_assertEq (a b : ℕ) : Ended (assertEq a b) := by
  rw [assertEq]
  split
  · exact ended_ok _
  · exact fun h => by cases h

theorem ended_openImage (m : Str) : Ended (openImage m) := by
  refine (ended_le16 m _).bind fun _ => (ended_assertEq _ _).bind fun _ => (ended_le32 m _).bind fun _ =>
    (ended_assertEq _ _).bind fun _ => (ended_assertEq _ _).bind fun _ => Ended.bind ?_ fun _ =>
    (ended_le32 m _).bind fun _ => (ended_le16 m _).bind fun _ => ended_ok _
  refine (ended_le32 m _).bind fun n => ?_
  split
  · exact ended_ok _
  · exact fun h => by cases h

/-! ### What is at an entry -/

/-- Where the walk is: in a block that ends at `limit`, at the entry `dirent`. -/
structure Place where
  limit : ℤ
  dirent : ℤ
  deriving DecidableEq

/-- The first entry of a block. -/
def start (reader : Ext2Reader) (block : ℕ) : Place :=
  ⟨readBlock reader block + reader.blockSize, readBlock reader block⟩

/-- What the walk finds at an entry. -/
inductive Found where
  /-- `.` or `..` -/
  | dots
  | file (name : Str) (inode : ℤ)
  /-- A subdirectory, with its first block. -/
  | dir (name : Str) (block : ℕ)

def look (reader : Ext2Reader) (dirent : ℤ) : Except Fault Found := do
  let name ← filename reader.map dirent
  if name ≠ str "." ∧ name ≠ str ".." then
    let inode ← inodeOf reader (← le32 reader.map dirent)
    if (← mode reader.map inode) &&& sIFMT = sIFDIR then
      return .dir name (← block reader.map inode 0)
    else return .file name inode
  else return .dots

theorem ended_look (reader : Ext2Reader) (dirent : ℤ) : Ended (look reader dirent) := by
  refine (ended_filename _ _).bind fun name => ?_
  split
  · refine (ended_le32 _ _).bind fun number => (ended_inodeOf _ _).bind fun inode =>
      (ended_le16 _ _).bind fun mode => ?_
    split
    · exact (ended_le32 _ _).bind fun _ => ended_ok _
    · exact ended_ok _
  · exact ended_ok _

variable {s t u : Place} {found : Found} {k : ℕ} {path : Str} {walked : Walked}

variable (reader) in
/-- The walk from there on, within the block. -/
def walk (k : ℕ) (path : Str) (s : Place) (walked : Walked) : Except Fault Walked :=
  walkFrom reader k path s.limit s.dirent walked

variable (reader) in
/-- The walk behind an entry that has been read. -/
def walkOn (k : ℕ) (path : Str) (s : Place) (walked : Walked) : Found → Except Fault Walked
  | .dots => do walk reader k path ⟨s.limit, ← next reader.map s.dirent⟩ walked
  | .file name inode => do
    walk reader k path ⟨s.limit, ← next reader.map s.dirent⟩ (addFile (path ++ name) inode walked)
  | .dir name block => do
    let walked ← walk reader k (path ++ name ++ [slash]) (start reader block) walked
    walk reader k path ⟨s.limit, ← next reader.map s.dirent⟩ walked

theorem walk_done (h : ¬ s.dirent < s.limit) (k : ℕ) (path : Str) (walked : Walked) :
    walk reader (k + 1) path s walked = .ok walked := by
  rw [walk, walkFrom, if_neg h]
  rfl

/-- **One entry of the walk.** -/
theorem walk_succ (h_lt : s.dirent < s.limit) (k : ℕ) (path : Str) (walked : Walked) :
    walk reader (k + 1) path s walked = look reader s.dirent >>= walkOn reader k path s walked := by
  rw [walk, walkFrom, if_pos h_lt, look, bind_assoc]
  refine congrArg _ (funext fun name => ?_)
  split
  · rw [bind_assoc]
    refine congrArg _ (funext fun number => ?_)
    rw [bind_assoc]
    refine congrArg _ (funext fun inode => ?_)
    dsimp only
    rw [bind_assoc]
    refine congrArg _ (funext fun mode => ?_)
    split
    · rw [bind_assoc]
      rfl
    · rfl
  · rfl

/-! ### Where the walk goes -/

variable (reader) in
/-- The walk over the rest of the block comes to its end, and goes on behind it. -/
inductive Completes : Place → Prop
  | done {s : Place} (h : ¬ s.dirent < s.limit) : Completes s
  | entry {s : Place} {n : ℤ} {found : Found} (h : s.dirent < s.limit) (h_look : look reader s.dirent = .ok found)
      (h_below : ∀ name block, found = .dir name block → Completes (start reader block))
      (h_next : next reader.map s.dirent = .ok n) (h_rest : Completes ⟨s.limit, n⟩) : Completes s

variable (reader) in
/-- At `s` there is an entry for a subdirectory, which begins at `t`. -/
inductive Enters : Place → Place → Prop
  | mk {s : Place} {name : Str} {block : ℕ} (h : s.dirent < s.limit)
      (h_look : look reader s.dirent = .ok (.dir name block)) : Enters s (start reader block)

variable (reader) in
/-- The walk comes to the entry behind the one at `s`. -/
inductive Skips : Place → Place → Prop
  | mk {s : Place} {n : ℤ} {found : Found} (h : s.dirent < s.limit) (h_look : look reader s.dirent = .ok found)
      (h_below : ∀ name block, found = .dir name block → Completes reader (start reader block))
      (h_next : next reader.map s.dirent = .ok n) : Skips s ⟨s.limit, n⟩

variable (reader) in
def Goes (s t : Place) : Prop :=
  Enters reader s t ∨ Skips reader s t

/-- With a bound that is large enough, the walk completes. -/
theorem Completes.walk_cases (h : Completes reader s) (k : ℕ) (path : Str) (walked : Walked) :
    (∃ walked', walk reader k path s walked = .ok walked') ∨
      walk reader k path s walked = .error .endless := by
  induction k generalizing s path walked with
  | zero => exact .inr rfl
  | succ k ih =>
    cases h with
    | done h => exact .inl ⟨_, walk_done h k path walked⟩
    | @entry _ n found h h_look h_below h_next h_rest =>
      rw [walk_succ h, h_look, ok_bind]
      cases found with
      | dots =>
        rw [walkOn, h_next, ok_bind]
        exact ih h_rest path walked
      | file name inode =>
        rw [walkOn, h_next, ok_bind]
        exact ih h_rest path _
      | dir name block =>
        rw [walkOn]
        obtain ⟨walked', h_walk⟩ | h_walk := ih (h_below name block rfl) (path ++ name ++ [slash]) walked
        · rw [h_walk, ok_bind, h_next, ok_bind]
          exact ih h_rest path walked'
        · rw [h_walk]
          exact .inr rfl

theorem completes_of_walk {walked' : Walked} (h : walk reader k path s walked = .ok walked') :
    Completes reader s := by
  induction k generalizing s path walked walked' with
  | zero => cases h
  | succ k ih =>
    by_cases h_lt : s.dirent < s.limit
    · rw [walk_succ h_lt] at h
      obtain ⟨found, h_look, h⟩ := bind_eq_ok_iff.mp h
      cases found with
      | dots =>
        obtain ⟨n, h_next, h⟩ := bind_eq_ok_iff.mp h
        exact .entry h_lt h_look (fun _ _ h => by cases h) h_next (ih h)
      | file name inode =>
        obtain ⟨n, h_next, h⟩ := bind_eq_ok_iff.mp h
        exact .entry h_lt h_look (fun _ _ h => by cases h) h_next (ih h)
      | dir name block =>
        obtain ⟨walked'', h_below, h⟩ := bind_eq_ok_iff.mp h
        obtain ⟨n, h_next, h⟩ := bind_eq_ok_iff.mp h
        refine .entry h_lt h_look (fun name' block' h => ?_) h_next (ih h)
        cases h
        exact ih h_below
    · exact .done h_lt

/-! ### The end of the walk -/

/-- Where the search does not end, the walk hits every bound. -/
theorem walk_of_not_ending (h : ¬ Ending (Goes reader) s) (k : ℕ) (path : Str) (walked : Walked) :
    walk reader k path s walked = .error .endless := by
  induction k generalizing s path walked with
  | zero => rfl
  | succ k ih =>
    obtain ⟨t, h_enters | h_skips, h_t⟩ := Effect.Acyclic.exists_of_not_ending h
    · cases h_enters with
      | mk h_lt h_look =>
        rw [walk_succ h_lt, h_look, ok_bind, walkOn, ih h_t]
        rfl
    · cases h_skips with
      | @mk n found h_lt h_look h_below h_next =>
        rw [walk_succ h_lt, h_look, ok_bind]
        cases found with
        | dots => rw [walkOn, h_next, ok_bind, ih h_t]
        | file name inode => rw [walkOn, h_next, ok_bind, ih h_t]
        | dir name block =>
          -- the walk below comes back, if the bound lets it
          rw [walkOn]
          obtain ⟨walked', h_walk⟩ | h_walk :=
            (h_below name block rfl).walk_cases k (path ++ name ++ [slash]) walked
          · rw [h_walk, ok_bind, h_next, ok_bind, ih h_t]
          · rw [h_walk]
            rfl

/-- The walk ends, whatever it has done before. -/
def Ends (reader : Ext2Reader) (s : Place) : Prop :=
  ∃ n, ∀ k, n ≤ k → ∀ path walked, Ended (walk reader k path s walked)

theorem ends_of_ending (h : Ending (Goes reader) s) : Ends reader s := by
  -- on the steps that are left; each gives a fuel that suffices
  induction h with
  | intro s _ ih =>
    by_cases h_lt : s.dirent < s.limit
    case neg =>
      refine ⟨1, fun k hk path walked => ?_⟩
      obtain ⟨k, rfl⟩ := Nat.exists_eq_add_of_le' hk
      rw [walk_done h_lt]
      exact ended_ok _
    cases h_look : look reader s.dirent with
    | error e =>
      refine ⟨1, fun k hk path walked => ?_⟩
      obtain ⟨k, rfl⟩ := Nat.exists_eq_add_of_le' hk
      rw [walk_succ h_lt, h_look]
      exact (ended_look reader s.dirent).error h_look
    | ok found =>
      -- behind the entry the walk ends, if it comes to there
      have h_rest : ∃ n, (∀ name block, found = .dir name block → Completes reader (start reader block)) →
          ∀ k, n ≤ k → ∀ path walked,
            Ended (do walk reader k path ⟨s.limit, ← next reader.map s.dirent⟩ walked) := by
        cases h_next : next reader.map s.dirent with
        | error e => exact ⟨0, fun _ k _ path walked => (ended_next reader.map s.dirent).error h_next⟩
        | ok n =>
          by_cases h_below : ∀ name block, found = .dir name block → Completes reader (start reader block)
          · obtain ⟨n', h_ends⟩ := ih _ (.inr (.mk h_lt h_look h_below h_next))
            exact ⟨n', fun _ => h_ends⟩
          · exact ⟨0, fun h => absurd h h_below⟩
      obtain ⟨n₂, h_rest⟩ := h_rest
      cases found with
      | dots =>
        refine ⟨n₂ + 1, fun k hk path walked => ?_⟩
        obtain ⟨k, rfl⟩ := Nat.exists_eq_add_of_le' (Nat.le_trans (Nat.le_add_left 1 n₂) hk)
        rw [walk_succ h_lt, h_look, ok_bind]
        exact h_rest (fun _ _ h => by cases h) k (by omega) path walked
      | file name inode =>
        refine ⟨n₂ + 1, fun k hk path walked => ?_⟩
        obtain ⟨k, rfl⟩ := Nat.exists_eq_add_of_le' (Nat.le_trans (Nat.le_add_left 1 n₂) hk)
        rw [walk_succ h_lt, h_look, ok_bind]
        exact h_rest (fun _ _ h => by cases h) k (by omega) path _
      | dir name block =>
        -- first the directory below, and then, if it is completed, the entries behind it
        obtain ⟨n₁, h_ends⟩ := ih _ (.inl (.mk h_lt h_look))
        refine ⟨n₁ + n₂ + 1, fun k hk path walked => ?_⟩
        obtain ⟨k, rfl⟩ := Nat.exists_eq_add_of_le' (Nat.le_trans (Nat.le_add_left 1 (n₁ + n₂)) hk)
        rw [walk_succ h_lt, h_look, ok_bind, walkOn]
        cases h_walk : walk reader k (path ++ name ++ [slash]) (start reader block) walked with
        | error e => exact (h_ends k (by omega) (path ++ name ++ [slash]) walked).error h_walk
        | ok walked' =>
          refine h_rest (fun name' block' h => ?_) k (by omega) path walked'
          cases h
          exact completes_of_walk h_walk

/-- **A walk ends** just if the search over the places that it comes to does. -/
theorem ends_iff_ending : Ends reader s ↔ Ending (Goes reader) s := by
  refine ⟨fun ⟨n, h⟩ => ?_, ends_of_ending⟩
  by_contra h_not
  exact h n (Nat.le_refl n) [] ⟨[], []⟩ (walk_of_not_ending h_not n _ _)

/-! ### Finitely many places -/

theorem mapped_of_look (h : look reader s.dirent = .ok found) :
    -6 ≤ s.dirent ∧ s.dirent ≤ reader.map.length := by
  obtain ⟨name, h_name, -⟩ := bind_eq_ok_iff.mp h
  obtain ⟨length, h_length, -⟩ := bind_eq_ok_iff.mp h_name
  obtain ⟨bs, h_bytes, -⟩ := bind_eq_ok_iff.mp h_length
  rw [bytes] at h_bytes
  split at h_bytes
  · omega
  · cases h_bytes

theorem next_of_ok {m : Str} {dirent n : ℤ} (h : next m dirent = .ok n) : dirent ≤ n := by
  obtain ⟨rec_len, -, h_n⟩ := bind_eq_ok_iff.mp h
  have h_eq : dirent + rec_len = n := Except.ok.inj h_n
  omega

/-- A place is in the block, or behind it. -/
theorem limit_le_of_goes (h : ReflTransGen (Goes reader) s t) (h_s : s.limit ≤ s.dirent + reader.blockSize) :
    t.limit ≤ t.dirent + reader.blockSize := by
  induction h with
  | refl => exact h_s
  | tail _ h_goes ih =>
    obtain h_enters | h_skips := h_goes
    · cases h_enters with
      | mk _ _ => exact Int.le_refl _
    · cases h_skips with
      | mk _ _ _ h_next =>
        have h_le := next_of_ok h_next
        dsimp only
        omega

theorem finite_places (h_s : s.limit ≤ s.dirent + reader.blockSize) :
    {t | ReflTransGen (Goes reader) s t ∧ ∃ u, Goes reader t u}.Finite := by
  let length : ℤ := reader.map.length
  let size : ℤ := reader.blockSize
  refine ((Set.finite_Icc (-6) length).prod (Set.finite_Icc (-6) (length + size))).preimage
    (f := fun t : Place => (t.dirent, t.limit)) ?_ |>.subset ?_
  · rintro ⟨l, d⟩ - ⟨l', d'⟩ - h
    obtain ⟨rfl, rfl⟩ := Prod.mk.inj h
    rfl
  · rintro t ⟨h_t, u, h_goes⟩
    have h_le := limit_le_of_goes h_t h_s
    have h_look : t.dirent < t.limit ∧ ∃ found, look reader t.dirent = .ok found := by
      obtain h_enters | h_skips := h_goes
      · cases h_enters with
        | mk h_lt h_look => exact ⟨h_lt, _, h_look⟩
      · cases h_skips with
        | mk h_lt h_look _ _ => exact ⟨h_lt, _, h_look⟩
    obtain ⟨h_lt, found, h_look⟩ := h_look
    have h_mapped := mapped_of_look h_look
    refine ⟨⟨h_mapped.1, h_mapped.2⟩, ?_, ?_⟩
    · change -6 ≤ t.limit
      omega
    · change t.limit ≤ (reader.map.length : ℤ) + reader.blockSize
      omega

/-! ### Coming back -/

/-- **Nothing leads back.** -/
structure NoWayBack (reader : Ext2Reader) (s : Place) : Prop where
  /-- No entry that the walk goes on behind has length zero. -/
  advances : ∀ t, ReflTransGen (Goes reader) s t → ¬ Skips reader t t
  /-- From a directory the walk does not come to an entry for it. -/
  separate : ∀ t u, ReflTransGen (Goes reader) s t → Enters reader t u → ¬ ReflTransGen (Goes reader) u t

/-- Behind an entry that is skipped there is not the same one, or one before it. -/
theorem le_of_skips (h : TransGen (Skips reader) s t) : s.limit = t.limit ∧ s.dirent ≤ t.dirent := by
  induction h with
  | single h =>
    cases h with
    | mk _ _ _ h_next => exact ⟨rfl, next_of_ok h_next⟩
  | tail _ h ih =>
    cases h with
    | mk _ _ _ h_next => exact ⟨ih.1, ih.2.trans (next_of_ok h_next)⟩

/-- A way within one block, or one into a subdirectory. -/
theorem transGen_cases (h : TransGen (Goes reader) s t) : TransGen (Skips reader) s t ∨
    ∃ u v, ReflTransGen (Goes reader) s u ∧ Enters reader u v ∧ ReflTransGen (Goes reader) v t := by
  induction h with
  | single h =>
    obtain h | h := h
    · exact .inr ⟨_, _, .refl, h, .refl⟩
    · exact .inl (.single h)
  | @tail t' t h_way h ih =>
    obtain h | h := h
    · exact .inr ⟨_, _, h_way.to_reflTransGen, h, .refl⟩
    · obtain h_skips | ⟨u, v, h_u, h_enters, h_v⟩ := ih
      · exact .inl (h_skips.tail h)
      · exact .inr ⟨u, v, h_u, h_enters, h_v.tail (.inr h)⟩

theorem neverBack_iff : NeverBack (Goes reader) s ↔ NoWayBack reader s := by
  constructor
  · intro h
    exact ⟨fun t h_t h_skips => h t h_t (.single (.inr h_skips)),
      fun t u h_t h_enters h_u => h t h_t (TransGen.head' (.inl h_enters) h_u)⟩
  · intro h t h_t h_back
    obtain h_skips | ⟨u, v, h_u, h_enters, h_v⟩ := transGen_cases h_back
    · -- within the block, the entry behind the first one is the first one itself
      obtain ⟨u, h_first, h_rest⟩ := TransGen.head'_iff.mp h_skips
      have h_ge : u.limit = t.limit ∧ u.dirent ≤ t.dirent := by
        obtain rfl | h_rest := Relation.reflTransGen_iff_eq_or_transGen.mp h_rest
        · exact ⟨rfl, Int.le_refl _⟩
        · exact le_of_skips h_rest
      have h_le := le_of_skips (.single h_first)
      obtain rfl : t = u := by
        obtain ⟨l, d⟩ := t
        obtain ⟨l', d'⟩ := u
        exact congrArg₂ Place.mk h_le.1 (Int.le_antisymm h_le.2 h_ge.2)
      exact h.advances t h_t h_first
    · exact h.separate u v (h_t.trans h_u) h_enters (h_v.trans (h_back.to_reflTransGen.trans h_u))

/-- The walk over a directory ends just if nothing leads back. -/
theorem ends_iff_noWayBack (block : ℕ) : Ends reader (start reader block) ↔
    NoWayBack reader (start reader block) := by
  rw [ends_iff_ending, Effect.Acyclic.ending_iff_neverBack (finite_places (Int.le_refl _)), neverBack_iff]

/-! ### `LoadDirectory` -/

/-- `LoadDirectory` gets to `WalkDir` on the block. -/
def Walks (m : Str) (reader : Ext2Reader) (first : ℕ) : Prop :=
  openImage m = .ok reader ∧ ∃ root, inodeOf reader 2 = .ok root ∧ mode m root = .ok 0o40755 ∧
    block m root 0 = .ok first

theorem Walks.loadDirectory {m : Str} {first : ℕ} (h : Walks m reader first) (k : ℕ) :
    loadDirectory m k = (walkDir reader k [slash] first ⟨[], []⟩).map fun walked => (reader, walked) := by
  obtain ⟨h_open, root, h_root, h_mode, h_block⟩ := h
  have h_assert : assertEq 0o40755 0o40755 = .ok () := if_pos rfl
  rw [Ext2.loadDirectory, h_open, ok_bind, h_root, ok_bind, h_mode, ok_bind, h_assert, ok_bind, h_block,
    ok_bind]
  rfl

/-- Or it stops before. -/
theorem ended_of_not_walks {m : Str} (h : ∀ reader first, ¬ Walks m reader first) (k : ℕ) :
    Ended (loadDirectory m k) := by
  rw [loadDirectory]
  cases h_open : openImage m with
  | error e => exact (ended_openImage m).error h_open
  | ok reader =>
    rw [ok_bind]
    cases h_root : inodeOf reader 2 with
    | error e => exact (ended_inodeOf reader 2).error h_root
    | ok root =>
      rw [ok_bind]
      cases h_mode : mode m root with
      | error e => exact (ended_le16 m root).error h_mode
      | ok mode =>
        rw [ok_bind]
        cases h_assert : assertEq mode 0o40755 with
        | error e => exact (ended_assertEq mode 0o40755).error h_assert
        | ok u =>
          rw [ok_bind]
          cases h_block : block m root 0 with
          | error e => exact (ended_le32 m _).error h_block
          | ok first =>
            have h_eq : mode = 0o40755 := by
              by_contra h_ne
              rw [assertEq, if_neg h_ne] at h_assert
              cases h_assert
            exact absurd ⟨h_open, root, h_root, h_eq ▸ h_mode, h_block⟩ (h reader first)

/-- An image whose root begins with an entry `.` of length zero. -/
def zeroLength : List Str :=
  emptyDirectory.take 5 ++ [[2, 0, 0, 0, 0, 0, 1, 2] ++ str "."]

def zeroLengthReader : Ext2Reader :=
  pagesReader zeroLength

theorem openImage_zeroLength : openImage (zeroLength.flatMap filled) = .ok zeroLengthReader := by
  have h_magic : PageNumber zeroLength 1080 2 0xef53 := by decide +kernel
  have h_incompat : PageNumber zeroLength 1120 4 2 := by decide +kernel
  have h_block_size : PageNumber zeroLength 1048 4 0 := by decide +kernel
  have h_inodes : PageNumber zeroLength 1064 4 16 := by decide +kernel
  have h_inode_size : PageNumber zeroLength 1112 2 128 := by decide +kernel
  have h_le16 {c v : ℕ} (h : PageNumber zeroLength c 2 v) : le16 (zeroLength.flatMap filled) c = .ok v := h.read
  have h_le32 {c v : ℕ} (h : PageNumber zeroLength c 4 v) : le32 (zeroLength.flatMap filled) c = .ok v := h.read
  have h_blockSize : blockSizeOf (zeroLength.flatMap filled) 1024 = .ok 1024 := by
    have h_read : le32 (zeroLength.flatMap filled) (1024 + 24) = .ok 0 := h_le32 h_block_size
    rw [blockSizeOf, h_read, ok_bind]
    rfl
  have h_16 : le16 (zeroLength.flatMap filled) (1024 + 56) = .ok 0xef53 := h_le16 h_magic
  have h_32 : le32 (zeroLength.flatMap filled) (1024 + 96) = .ok 2 := h_le32 h_incompat
  have h_group : le32 (zeroLength.flatMap filled) (1024 + 40) = .ok 16 := h_le32 h_inodes
  have h_size : le16 (zeroLength.flatMap filled) (1024 + 88) = .ok 128 := h_le16 h_inode_size
  have h_assert : assertEq 0xef53 0xef53 = .ok () := if_pos rfl
  have h_required : assertEq (2 &&& 0x0002) 0x0002 = .ok () := if_pos rfl
  have h_others : assertEq (2 &&& 0xfffffffd) 0 = .ok () := if_pos rfl
  rw [openImage]
  dsimp only
  rw [h_16, ok_bind, h_assert, ok_bind, h_32, ok_bind, h_required, ok_bind, h_others, ok_bind, h_blockSize,
    ok_bind, h_group, ok_bind, h_size, ok_bind]
  rfl

/-- The root is at 3200, and its block is the one with the entry. -/
theorem walks_zeroLength : Walks (zeroLength.flatMap filled) zeroLengthReader 5 := by
  have h_table : PageNumber zeroLength 2056 4 3 := by decide +kernel
  have h_root : inodeOf zeroLengthReader 2 = .ok 3200 := inodeOf_pages h_table (by decide) (by decide)
  have h_mode : PageNumber zeroLength 3200 2 0o40755 := by decide +kernel
  have h_first : PageNumber zeroLength 3240 4 5 := by decide +kernel
  exact ⟨openImage_zeroLength, 3200, h_root, h_mode.read, h_first.read⟩

/-- Behind the entry `.` stands the entry `.`. -/
theorem skips_zeroLength : Skips zeroLengthReader ⟨6144, 5120⟩ ⟨6144, 5120⟩ := by
  have h_length : PageNumber zeroLength 5126 1 1 := by decide +kernel
  have h_rec_len : PageNumber zeroLength 5124 2 0 := by decide +kernel
  have h_name : filename zeroLengthReader.map 5120 = .ok (str ".") := by
    have h_u8 : u8 zeroLengthReader.map (5120 + 6) = .ok 1 := h_length.read
    have h_page : pageBytes zeroLength 5128 1 = str "." := by decide +kernel
    have h_bytes : bytes zeroLengthReader.map (5120 + 8) 1 = .ok (pageBytes zeroLength 5128 1) :=
      bytes_filled (by decide) (by rw [h_page]; rfl) (by decide)
    rw [filename, h_u8, ok_bind, h_bytes, h_page]
  have h_look : look zeroLengthReader 5120 = .ok .dots := by
    have h_dots : ¬ (str "." ≠ str "." ∧ str "." ≠ str "..") := by decide
    rw [look, h_name, ok_bind, if_neg h_dots]
    rfl
  have h_le16 : le16 zeroLengthReader.map (5120 + 4) = .ok 0 := h_rec_len.read
  have h_next : next zeroLengthReader.map 5120 = .ok 5120 := by
    rw [next, h_le16]
    rfl
  have h_lt : (5120 : ℤ) < 6144 := by decide
  exact .mk (s := ⟨6144, 5120⟩) h_lt h_look (fun _ _ h => by cases h) h_next

end GitlstreeFS.Ext2
