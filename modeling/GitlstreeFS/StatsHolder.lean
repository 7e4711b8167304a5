import GitlstreeFS.Cpp
import GitlstreeFS.SortedMap
import Mathlib.Algebra.BigOperators.Ring.Finset
import Mathlib.Algebra.Order.BigOperators.Group.List
import Mathlib.Data.List.AList
import Mathlib.Data.List.MinMax
import Mathlib.Tactic.Linarith

/-!
# The histograms of the statistics

`stats_holder.cc` counts, under a name, the binary logarithms of the values that are added. `Dump` prints each
of them as a power of two, with the count and a bar. Undefined behaviour is a `Fault`.

`Faithful calls` says that what is printed after `calls` tells the values. This is so just if all values are
from 1 up to 2^31, and no counter exceeds 42949672 (`faithful_iff_bounded`). The logarithm of zero is none, and
a shift by 31 gives a negative number.
-/

namespace GitlstreeFS.StatsHolder

/-! ### `stats_holder.cc` -/

/-- What is undefined, and `std::length_error`. -/
inductive Fault where
  /-- A `double` that is no `int`. -/
  | conversion
  /-- The end of a map has no `second`. -/
  | empty
  /-- The shift of an `int` by less than none or more than 31 bits. -/
  | shift
  /-- A product that is no `int`. -/
  | overflow
  /-- A division by zero. -/
  | division
  /-- A string of negative length. -/
  | length
  deriving DecidableEq, Repr

/-- `std::map<int, size_t>`, the counters of the buckets. -/
abbrev Histogram := SortedMap ℤ ℕ

/-- `stats`. -/
abbrev Stats := AList fun _ : Str => Histogram

/-- `log2`, converted to the `int` that the map has for a key, without regard to rounding. -/
def log2 (value : ℤ) : Except Fault ℤ :=
  if 0 < value then .ok (Nat.log2 value.toNat) else .error .conversion

/-- `StatsHolder::Add`. -/
def add (stats : Stats) (name : Str) (value : ℤ) : Except Fault Stats := do
  let bucket ← log2 value
  return stats.insert name (((stats.lookup name).getD .empty).bump (2 ^ 64) bucket)

/-- The calls of `Add` on a new `StatsHolder`. -/
def addAll (calls : List (Str × ℤ)) : Except Fault Stats :=
  calls.foldlM (fun stats c => add stats c.1 c.2) ∅

/-- A line of a histogram: `item`, `count`, and the length of the bar. -/
structure Line where
  item : ℤ
  count : ℤ
  stars : ℕ
  deriving DecidableEq, Repr

/-- What is printed for a name. -/
structure Part where
  name : Str
  lines : List Line
  deriving DecidableEq, Repr

/-- `kColumns`. -/
def kColumns : ℤ := 50

/-- `std::max_element`, by `second`. -/
def maxElement (histogram : Histogram) : ℕ :=
  (histogram.entries.map Prod.snd).foldr max 0

/-- A round of the inner loop. -/
def dumpLine (max_value : ℤ) (h : ℤ × ℕ) : Except Fault Line :=
  if 0 ≤ h.1 ∧ h.1 < 32 then
    let item := toInt (2 ^ h.1.toNat)
    let count := toInt h.2
    if Fits (count * kColumns) then
      if max_value = 0 ∨ ¬ Fits ((count * kColumns).tdiv max_value) then .error .division
      else if (count * kColumns).tdiv max_value < 0 then .error .length
      else .ok ⟨item, count, ((count * kColumns).tdiv max_value).toNat⟩
    else .error .overflow
  else .error .shift

/-- What is behind the name. -/
def dumpHistogram (histogram : Histogram) : Except Fault (List Line) :=
  if histogram.entries.isEmpty then .error .empty
  else
    let max_value := toInt (maxElement histogram)
    if max_value = 0 then .ok [] else histogram.entries.mapM (dumpLine max_value)

/-- A round of the outer loop. -/
def dumpStat (stat : (_ : Str) × Histogram) : Except Fault Part := do
  let lines ← dumpHistogram stat.2
  return ⟨stat.1, lines⟩

/-- The rounds of `Dump`, where `order` is the order of the unordered map. -/
def report (order : List ((_ : Str) × Histogram)) : Except Fault (List Part) :=
  order.mapM dumpStat

/-- A line, as it is printed. -/
def Line.text (line : Line) : Str :=
  str (toString line.item) ++ str ":" ++ str (toString line.count) ++ space :: List.replicate line.stars 0x2a
    ++ [newline]

/-- A name and its lines, as they are printed. -/
def Part.text (part : Part) : Str :=
  part.name ++ newline :: part.lines.flatMap Line.text

/-- `StatsHolder::Dump`. -/
def dump (order : List ((_ : Str) × Histogram)) : Except Fault Str := do
  let parts ← report order
  return parts.flatMap Part.text

example : (do let stats ← addAll [(str "age", 5), (str "age", 7), (str "age", 1)]; dump stats.entries)
    = .ok (str "age\n1:1 " ++ List.replicate 25 0x2a ++ str "\n4:2 " ++ List.replicate 50 0x2a ++ str "\n") := by
  decide

/-! ### What a histogram is for -/

/-- The values that are added under a name. -/
def valuesOf (calls : List (Str × ℤ)) (name : Str) : List ℤ :=
  (calls.filter (·.1 = name)).map Prod.snd

/-- The lines tell the values. -/
structure Tells (lines : List Line) (values : List ℤ) : Prop where
  /-- The counts add up. -/
  total : (lines.map Line.count).sum = values.length
  /-- There is one line with a label. -/
  distinct : (lines.map Line.item).Nodup
  /-- Each value has a label, and is counted under it. -/
  labelled : ∃ label : ℤ → ℤ,
    (∀ v ∈ values, ∃ line ∈ lines, line.item = label v ∧ line.count = (values.map label).count (label v)) ∧
    (∀ v ∈ values, 1 ≤ v → label v ≤ v ∧ v < 2 * label v) ∧
    (0 ∈ values → ∀ v ∈ values, label v = label 0 → v = 0)

/-- The values are positive and less than 2^31, and at most 42949672 of them have the same number of binary
digits. -/
structure Bounded (values : List ℤ) : Prop where
  range : ∀ v ∈ values, 1 ≤ v ∧ v < 2 ^ 31
  few : ∀ b : ℕ, (values.countP fun v => 2 ^ b ≤ v ∧ v < 2 ^ (b + 1)) ≤ 42949672

/-- After the calls, whatever the order of the map, `Dump` prints a part for each name, and it tells the
values. -/
def Faithful (calls : List (Str × ℤ)) : Prop :=
  ∃ stats, addAll calls = .ok stats ∧ ∀ order, order.Perm stats.entries →
    ∃ parts, report order = .ok parts ∧ dump order = .ok (parts.flatMap Part.text) ∧
      (parts.map Part.name).Nodup ∧ (∀ name, name ∈ parts.map Part.name ↔ name ∈ calls.map Prod.fst) ∧
      ∀ part ∈ parts, Tells part.lines (valuesOf calls part.name)

variable {calls : List (Str × ℤ)} {stats stats' : Stats} {name : Str} {value v : ℤ} {values : List ℤ}
  {h : Histogram} {lines : List Line} {line : Line}

theorem mem_valuesOf : v ∈ valuesOf calls name ↔ (name, v) ∈ calls := by
  simp [valuesOf]

theorem valuesOf_ne_nil_iff : valuesOf calls name ≠ [] ↔ name ∈ calls.map Prod.fst := by
  rw [valuesOf, Ne, List.map_eq_nil_iff, List.filter_eq_nil_iff]
  simp

theorem valuesOf_concat_self : valuesOf (calls ++ [(name, v)]) name = valuesOf calls name ++ [v] := by
  simp [valuesOf]

theorem valuesOf_concat_of_ne {name' : Str} (h_ne : name' ≠ name) :
    valuesOf (calls ++ [(name', v)]) name = valuesOf calls name := by
  simp [valuesOf, h_ne]

/-! ### What is counted -/

/-- The bucket of a positive number. -/
def bucket (v : ℤ) : ℕ := Nat.log2 v.toNat

theorem bucket_eq_iff (h_pos : 1 ≤ v) {b : ℕ} : bucket v = b ↔ 2 ^ b ≤ v ∧ v < 2 ^ (b + 1) := by
  obtain ⟨n, rfl⟩ := Int.eq_ofNat_of_zero_le (Int.le_of_lt h_pos)
  rw [bucket, Int.toNat_natCast, Nat.log2_eq_iff (by omega)]
  exact_mod_cast Iff.rfl

/-- The buckets of the values. -/
def buckets (values : List ℤ) : List ℤ :=
  values.map fun v => (bucket v : ℤ)

/-- How many of them are `b`. -/
theorem count_buckets (h_pos : ∀ v ∈ values, 1 ≤ v) (b : ℕ) :
    (buckets values).count (b : ℤ) = values.countP fun v => 2 ^ b ≤ v ∧ v < 2 ^ (b + 1) := by
  rw [buckets, List.count, List.countP_map]
  refine List.countP_congr fun v h_v => ?_
  rw [Function.comp_apply, beq_iff_eq, Nat.cast_inj, bucket_eq_iff (h_pos v h_v), decide_eq_true_iff]

/-- `add` counts a positive number. -/
theorem add_eq_ok_iff : add stats name value = .ok stats' ↔
    1 ≤ value ∧
      stats' = stats.insert name (((stats.lookup name).getD .empty).bump (2 ^ 64) (bucket value : ℤ)) := by
  rw [add, log2]
  split_ifs with h_pos
  · rw [ok_bind, and_iff_right (show 1 ≤ value from h_pos)]
    exact ⟨fun h => (Except.ok.inj h).symm, fun h => congrArg Except.ok h.symm⟩
  · exact iff_of_false nofun fun h => h_pos h.1

/-- The statistics are those of the calls. -/
structure Recorded (stats : Stats) (calls : List (Str × ℤ)) : Prop where
  mem_iff : ∀ name, name ∈ stats ↔ name ∈ calls.map Prod.fst
  tallies : ∀ name, ((stats.lookup name).getD .empty).Tallies (2 ^ 64) (buckets (valuesOf calls name))

theorem recorded_nil : Recorded ∅ [] :=
  ⟨fun _ => iff_of_false (AList.notMem_empty _) List.not_mem_nil, fun _ => SortedMap.tallies_empty _⟩

/-- **One call.** -/
theorem Recorded.add (h : Recorded stats calls) (h_add : add stats name value = .ok stats') :
    Recorded stats' (calls ++ [(name, value)]) := by
  obtain ⟨-, rfl⟩ := add_eq_ok_iff.mp h_add
  constructor
  · intro x
    rw [AList.mem_insert, h.mem_iff x, List.map_append, List.mem_append, or_comm, List.map_singleton,
      List.mem_singleton]
  · intro x
    by_cases h_x : name = x
    · -- a name that is new has the empty histogram before
      subst h_x
      rw [AList.lookup_insert, Option.getD_some, valuesOf_concat_self, buckets, List.map_append]
      exact (h.tallies name).bump _
    · rw [AList.lookup_insert_ne (Ne.symm h_x), valuesOf_concat_of_ne h_x]
      exact h.tallies x

theorem addAll_concat (calls : List (Str × ℤ)) (c : Str × ℤ) :
    addAll (calls ++ [c]) = addAll calls >>= fun stats => StatsHolder.add stats c.1 c.2 := by
  simp only [addAll, List.foldlM_append, List.foldlM_cons, List.foldlM_nil, bind_pure]

/-- **All calls.** -/
theorem recorded_of_addAll (h : addAll calls = .ok stats) : Recorded stats calls ∧ ∀ c ∈ calls, 1 ≤ c.2 := by
  induction calls using List.reverseRecOn generalizing stats with
  | nil =>
    cases h
    exact ⟨recorded_nil, fun c hc => absurd hc List.not_mem_nil⟩
  | append_singleton calls c ih =>
    rw [addAll_concat] at h
    obtain ⟨stats₁, h₁, h_add⟩ := bind_eq_ok_iff.mp h
    obtain ⟨h_recorded, h_pos⟩ := ih h₁
    refine ⟨h_recorded.add h_add, fun c' hc' => ?_⟩
    obtain hc' | hc' := List.mem_append.mp hc'
    · exact h_pos c' hc'
    · exact List.mem_singleton.mp hc' ▸ (add_eq_ok_iff.mp h_add).1

theorem exists_addAll (h : ∀ c ∈ calls, 1 ≤ c.2) : ∃ stats, addAll calls = .ok stats := by
  induction calls using List.reverseRecOn with
  | nil => exact ⟨∅, rfl⟩
  | append_singleton calls c ih =>
    obtain ⟨stats, h_stats⟩ := ih fun c' hc' => h c' (List.mem_append_left _ hc')
    have h_pos : 1 ≤ c.2 := h c (List.mem_append_right _ List.mem_cons_self)
    simp only [addAll_concat, h_stats, ok_bind, add_eq_ok_iff, and_iff_right h_pos, exists_eq]

/-! ### The lines -/

variable {max_value : ℤ} {e : ℤ × ℕ}

/-- What a line tells. -/
theorem dumpLine_eq_ok (h : dumpLine max_value e = .ok line) :
    e.1 < 32 ∧ line.item = toInt (2 ^ e.1.toNat) ∧ line.count = toInt e.2 ∧ Fits (toInt e.2 * kColumns) := by
  rw [dumpLine] at h
  split at h
  case isTrue h_shift =>
    dsimp only at h
    split_ifs at h with h_fits
    obtain rfl := Except.ok.inj h
    dsimp only
    exact ⟨h_shift.2, rfl, rfl, h_fits⟩
  case isFalse => cases h

/-- A counter that is at most the maximum, and not too large, gives a line. -/
theorem exists_dumpLine (h_bucket : 0 ≤ e.1 ∧ e.1 < 32) (h_le : (e.2 : ℤ) ≤ max_value)
    (h_pos : 0 < max_value) (h_max : max_value ≤ 42949672) : ∃ line, dumpLine max_value e = .ok line := by
  have h_count : toInt e.2 = e.2 := toInt_of_fits ⟨by omega, by omega⟩
  -- neither the product nor the quotient leaves `int`
  have h_nonneg : 0 ≤ (e.2 * kColumns : ℤ).tdiv max_value :=
    Int.tdiv_nonneg (by unfold kColumns; omega) h_pos.le
  have h_stars : (e.2 * kColumns : ℤ).tdiv max_value ≤ e.2 * kColumns :=
    Int.tdiv_le_self _ (by unfold kColumns; omega)
  have h_fits : Fits (e.2 * kColumns) := by
    unfold Fits kColumns
    omega
  rw [dumpLine, if_pos h_bucket]
  simp only [h_count]
  rw [if_pos h_fits, if_neg, if_neg h_nonneg.not_gt]
  · exact ⟨_, rfl⟩
  · rintro (h_zero | h_division)
    · exact h_pos.ne' h_zero
    · exact h_division ⟨by omega, h_stars.trans_lt h_fits.2⟩

theorem le_maxElement (h_mem : e ∈ h.entries) : e.2 ≤ maxElement h :=
  List.le_max_of_le' 0 (List.mem_map_of_mem h_mem) le_rfl

theorem maxElement_le {n : ℕ} (h_le : ∀ e ∈ h.entries, e.2 ≤ n) : maxElement h ≤ n :=
  List.max_le_of_forall_le _ n (List.forall_mem_map.mpr h_le)

/-- Either all counters are told, or none. -/
theorem dumpHistogram_eq_ok (h_dump : dumpHistogram h = .ok lines) :
    lines = [] ∨ h.entries.mapM (dumpLine (toInt (maxElement h))) = .ok lines := by
  rw [dumpHistogram] at h_dump
  dsimp only at h_dump
  split_ifs at h_dump with h_empty h_zero
  · cases h_dump
    exact .inl rfl
  · exact .inr h_dump

theorem items_of_mapM (h_lines : h.entries.mapM (dumpLine max_value) = .ok lines) :
    lines.map Line.item = h.entries.map fun e => toInt (2 ^ e.1.toNat) :=
  map_of_mapM h_lines fun _ _ _ h_line => (dumpLine_eq_ok h_line).2.1

theorem counts_of_mapM (h_lines : h.entries.mapM (dumpLine max_value) = .ok lines) :
    lines.map Line.count = h.entries.map fun e => toInt e.2 :=
  map_of_mapM h_lines fun _ _ _ h_line => (dumpLine_eq_ok h_line).2.2.1

/-! ### What the lines tell -/

/-- No line has a label above 2^30. -/
theorem toInt_two_pow_le {b : ℤ} (h_b : b < 32) : toInt (2 ^ b.toNat) ≤ 2 ^ 30 := by
  have h_all : ∀ n < 32, toInt (2 ^ n) ≤ 2 ^ 30 := by decide
  exact h_all b.toNat (by omega)

/-- No counter is told as more than it has counted. -/
theorem toInt_mod_le (n : ℕ) : toInt ((n % 2 ^ 64 : ℕ) : ℤ) ≤ n := by
  rw [toInt, Int.bmod_def]
  split <;> omega

section

variable (h_tallies : h.Tallies (2 ^ 64) (buckets values)) (h_ne : values ≠ [])

include h_tallies in
theorem sum_counts : (h.entries.map fun e => ((buckets values).count e.1 : ℤ)).sum = values.length := by
  have h_nat := h_tallies.sum_count
  rw [buckets, List.length_map] at h_nat
  rw [← h_nat, Nat.cast_list_sum, List.map_map]
  rfl

include h_tallies in
/-- Where the counts add up, each is told as it is. -/
theorem toInt_eq_count (h_sum : (h.entries.map fun e => toInt e.2).sum = values.length)
    (h_mem : e ∈ h.entries) : toInt e.2 = (buckets values).count e.1 := by
  have h_le : ∀ e ∈ h.entries, toInt e.2 ≤ ((buckets values).count e.1 : ℤ) := by
    intro e he
    rw [(h_tallies.mem_iff.mp he).2]
    exact toInt_mod_le _
  -- if one were told as less than it is, so would be the sum
  by_contra h_count
  have h_lt := List.sum_lt_sum _ _ h_le ⟨e, h_mem, lt_of_le_of_ne (h_le e h_mem) h_count⟩
  rw [h_sum, sum_counts h_tallies] at h_lt
  exact lt_irrefl _ h_lt

include h_tallies h_ne in
/-- **What is needed.** Above 2^30 there is no label, and a count that is not told as it is falls short. -/
theorem bounded_of_tells (h_pos : ∀ v ∈ values, 1 ≤ v) (h_dump : dumpHistogram h = .ok lines)
    (h_tells : Tells lines values) : Bounded values := by
  obtain rfl | h_lines := dumpHistogram_eq_ok h_dump
  · -- without lines nothing adds up
    have h_total : (0 : ℤ) = values.length := h_tells.total
    exact absurd (List.length_eq_zero_iff.mp (by omega)) h_ne
  constructor
  · -- the label is the number that some line has, and that is an `int`
    intro v h_v
    obtain ⟨label, h_label, h_bounds, -⟩ := h_tells.labelled
    obtain ⟨line, h_line, h_item, -⟩ := h_label v h_v
    obtain ⟨e, -, h_eq⟩ := exists_of_mem_mapM h_lines h_line
    obtain ⟨h_shift, h_item', -⟩ := dumpLine_eq_ok h_eq
    have h_le := toInt_two_pow_le h_shift
    have h_lt := (h_bounds v h_v (h_pos v h_v)).2
    exact ⟨h_pos v h_v, by omega⟩
  · intro b
    rw [← count_buckets h_pos]
    by_cases h_b : (b : ℤ) ∈ buckets values
    · -- the count is told as it is, and its product with `kColumns` did not overflow
      have h_e := h_tallies.mem_iff.mpr ⟨h_b, rfl⟩
      have h_sum := h_tells.total
      rw [counts_of_mapM h_lines] at h_sum
      obtain ⟨line, -, h_line⟩ := exists_of_mapM h_lines h_e
      have h_fits := (dumpLine_eq_ok h_line).2.2.2
      have h_told : toInt _ = ((buckets values).count (b : ℤ) : ℤ) := toInt_eq_count h_tallies h_sum h_e
      rw [h_told] at h_fits
      unfold Fits kColumns at h_fits
      omega
    · rw [List.count_eq_zero_of_not_mem h_b]
      exact Nat.zero_le _

theorem toInt_two_pow {n : ℕ} (h_n : n < 31) : toInt (2 ^ n) = 2 ^ n := by
  have h_all : ∀ n < 31, toInt (2 ^ n) = 2 ^ n := by decide
  exact h_all n h_n

/-- A power of two has one exponent. -/
theorem count_label (v : ℤ) :
    (values.map fun v => (2 : ℤ) ^ bucket v).count (2 ^ bucket v)
      = (buckets values).count (bucket v : ℤ) := by
  have h_pow : Function.Injective fun n : ℕ => (2 : ℤ) ^ n := Int.pow_right_injective (by decide)
  have h_label := List.count_map_of_injective (values.map bucket) _ h_pow (bucket v)
  have h_bucket := List.count_map_of_injective (values.map bucket) _ (Nat.cast_injective (R := ℤ)) (bucket v)
  rw [List.map_map] at h_label h_bucket
  exact h_label.trans h_bucket.symm

/-! ### Few numbers below 2^31 -/

theorem Bounded.count_le (h_bounded : Bounded values) (k : ℤ) : (buckets values).count k ≤ 42949672 := by
  by_cases h_k : k ∈ buckets values
  · obtain ⟨v, -, rfl⟩ := List.mem_map.mp h_k
    rw [count_buckets fun v h_v => (h_bounded.range v h_v).1]
    exact h_bounded.few _
  · rw [List.count_eq_zero_of_not_mem h_k]
    exact Nat.zero_le _

variable (h_bounded : Bounded values)

include h_tallies h_bounded

/-- An entry is the number of the values in a bucket. -/
theorem entry_of_bounded (h_mem : e ∈ h.entries) :
    (∃ n < 31, e.1 = ((n : ℕ) : ℤ)) ∧ e.2 = (buckets values).count e.1 ∧ 0 < e.2 := by
  obtain ⟨h_k, h_n⟩ := h_tallies.mem_iff.mp h_mem
  have h_le := h_bounded.count_le e.1
  have h_pos : 0 < (buckets values).count e.1 := List.count_pos_iff.mpr h_k
  rw [Nat.mod_eq_of_lt (by omega)] at h_n
  obtain ⟨v, h_v, h_bucket⟩ := List.mem_map.mp h_k
  refine ⟨⟨bucket v, ?_, h_bucket.symm⟩, h_n, by omega⟩
  obtain ⟨h_one, h_lt⟩ := h_bounded.range v h_v
  rw [bucket, Nat.log2_lt (by omega)]
  omega

theorem toInt_count (h_mem : e ∈ h.entries) : toInt e.2 = ((buckets values).count e.1 : ℤ) := by
  have h_le := h_bounded.count_le e.1
  rw [(entry_of_bounded h_tallies h_bounded h_mem).2.1]
  exact toInt_of_fits ⟨by omega, by omega⟩

include h_ne in
/-- Each entry gives a line. -/
theorem exists_lines :
    ∃ lines, dumpHistogram h = .ok lines ∧ h.entries.mapM (dumpLine (toInt (maxElement h))) = .ok lines := by
  -- there is an entry, which makes the maximum positive
  obtain ⟨v, h_v⟩ := List.exists_mem_of_ne_nil values h_ne
  have h_first := h_tallies.mem_iff.mpr ⟨List.mem_map_of_mem h_v, rfl⟩
  have h_first_pos := (entry_of_bounded h_tallies h_bounded h_first).2.2
  have h_first_le := le_maxElement h_first
  have h_max_le : maxElement h ≤ 42949672 := maxElement_le fun e he =>
    (entry_of_bounded h_tallies h_bounded he).2.1 ▸ h_bounded.count_le e.1
  have h_max : toInt (maxElement h) = maxElement h := toInt_of_fits ⟨by omega, by omega⟩
  obtain ⟨lines, h_lines⟩ : ∃ lines, h.entries.mapM (dumpLine (toInt (maxElement h))) = .ok lines := by
    refine exists_mapM_eq_ok_iff.mpr fun e he => ?_
    obtain ⟨⟨n, h_n, h_bucket⟩, -, -⟩ := entry_of_bounded h_tallies h_bounded he
    have h_le := le_maxElement he
    rw [h_max]
    exact exists_dumpLine ⟨by omega, by omega⟩ (by omega) (by omega) (by omega)
  refine ⟨lines, ?_, h_lines⟩
  rw [dumpHistogram, if_neg (by simpa using List.ne_nil_of_mem h_first)]
  dsimp only
  rw [if_neg (by omega), h_lines]

/-- **What the lines tell.** -/
theorem tells_of_bounded (h_lines : h.entries.mapM (dumpLine max_value) = .ok lines) : Tells lines values := by
  constructor
  · -- the counts
    rw [counts_of_mapM h_lines, List.map_congr_left fun e he => toInt_count h_tallies h_bounded he]
    exact sum_counts h_tallies
  · -- greater buckets have greater labels
    rw [items_of_mapM h_lines, List.Nodup, List.pairwise_map]
    refine h.sorted.imp_of_mem fun {a b} ha hb h_lt => ?_
    obtain ⟨⟨m, h_m, h_a⟩, -, -⟩ := entry_of_bounded h_tallies h_bounded ha
    obtain ⟨⟨n, h_n, h_b⟩, -, -⟩ := entry_of_bounded h_tallies h_bounded hb
    rw [h_a, h_b, Int.toNat_natCast, Int.toNat_natCast, toInt_two_pow h_m, toInt_two_pow h_n]
    exact (Int.pow_right_injective (by decide)).ne (by omega)
  refine ⟨fun v => 2 ^ bucket v, fun v h_v => ?_, fun v _ h_pos => ?_, fun h_zero => ?_⟩
  · -- the line of a value
    have h_entry := h_tallies.mem_iff.mpr ⟨List.mem_map_of_mem h_v, rfl⟩
    obtain ⟨⟨n, h_n, h_bucket⟩, -, -⟩ := entry_of_bounded h_tallies h_bounded h_entry
    obtain ⟨line, h_line, h_eq⟩ := exists_of_mapM h_lines h_entry
    obtain ⟨-, h_item, h_count, -⟩ := dumpLine_eq_ok h_eq
    refine ⟨line, h_line, h_item.trans (toInt_two_pow ?_), h_count.trans ?_⟩
    · exact Nat.cast_inj.mp h_bucket ▸ h_n
    · rw [toInt_count h_tallies h_bounded h_entry, count_label v]
  · obtain ⟨h_le, h_lt⟩ := (bucket_eq_iff h_pos).mp rfl
    rw [pow_succ, mul_comm] at h_lt
    exact ⟨h_le, h_lt⟩
  · exact absurd (h_bounded.range 0 h_zero).1 (by decide)

end

/-! ### The parts -/

theorem dumpStat_eq_ok_iff {stat : (_ : Str) × Histogram} {part : Part} :
    dumpStat stat = .ok part ↔ part.name = stat.1 ∧ dumpHistogram stat.2 = .ok part.lines := by
  rw [dumpStat, bind_eq_ok_iff]
  constructor
  · rintro ⟨lines, h_lines, h_part⟩
    obtain rfl := Except.ok.inj h_part
    exact ⟨rfl, h_lines⟩
  · rintro ⟨h_name, h_lines⟩
    exact ⟨part.lines, h_lines, congrArg Except.ok (by rw [← h_name])⟩

/-- The histogram of a name. -/
theorem Recorded.histogram (h_recorded : Recorded stats calls) (h_mem : ⟨name, h⟩ ∈ stats.entries) :
    valuesOf calls name ≠ [] ∧ h.Tallies (2 ^ 64) (buckets (valuesOf calls name)) := by
  have h_lookup : stats.lookup name = some h := AList.mem_lookup_iff.mpr h_mem
  have h_name : name ∈ stats := AList.lookup_isSome.mp (h_lookup ▸ rfl)
  have h_tallies := h_recorded.tallies name
  rw [h_lookup, Option.getD_some] at h_tallies
  exact ⟨valuesOf_ne_nil_iff.mpr ((h_recorded.mem_iff name).mp h_name), h_tallies⟩

theorem Faithful.pos (h : Faithful calls) : ∀ c ∈ calls, 1 ≤ c.2 := by
  obtain ⟨stats, h_stats, -⟩ := h
  exact (recorded_of_addAll h_stats).2

/-- **What is needed** of each name. -/
theorem Faithful.bounded (h : Faithful calls) (name : Str) : Bounded (valuesOf calls name) := by
  have h_pos := h.pos
  obtain ⟨stats, h_stats, h_order⟩ := h
  obtain ⟨h_recorded, -⟩ := recorded_of_addAll h_stats
  -- one order is enough
  obtain ⟨parts, h_parts, -, -, -, h_tells⟩ := h_order stats.entries (.refl _)
  by_cases h_name : name ∈ stats
  · obtain ⟨histogram, h_lookup⟩ := Option.isSome_iff_exists.mp (AList.lookup_isSome.mpr h_name)
    have h_mem : ⟨name, histogram⟩ ∈ stats.entries := AList.mem_lookup_iff.mp h_lookup
    obtain ⟨h_ne, h_tallies⟩ := h_recorded.histogram h_mem
    obtain ⟨part, h_part, h_eq⟩ := exists_of_mapM h_parts h_mem
    obtain ⟨rfl, h_lines⟩ := dumpStat_eq_ok_iff.mp h_eq
    exact bounded_of_tells h_tallies h_ne (fun v h_v => h_pos _ (mem_valuesOf.mp h_v)) h_lines
      (h_tells part h_part)
  · -- nothing was added under the name
    have h_nil : valuesOf calls name = [] :=
      not_ne_iff.mp fun h_ne => h_name ((h_recorded.mem_iff name).mpr (valuesOf_ne_nil_iff.mp h_ne))
    rw [h_nil]
    exact ⟨fun v h_v => absurd h_v List.not_mem_nil, fun b => Nat.zero_le _⟩

/-- **What is enough.** -/
theorem faithful_of_bounded (h : ∀ name, Bounded (valuesOf calls name)) : Faithful calls := by
  obtain ⟨stats, h_stats⟩ := exists_addAll fun c h_c => ((h c.1).range c.2 (mem_valuesOf.mpr h_c)).1
  obtain ⟨h_recorded, -⟩ := recorded_of_addAll h_stats
  refine ⟨stats, h_stats, fun order h_order => ?_⟩
  -- the entries are those of the map, in another order
  have h_stat : ∀ stat ∈ order,
      ∃ lines, dumpHistogram stat.2 = .ok lines ∧ Tells lines (valuesOf calls stat.1) := by
    intro stat h_mem
    obtain ⟨h_ne, h_tallies⟩ := h_recorded.histogram (h_order.mem_iff.mp h_mem)
    obtain ⟨lines, h_dump, h_lines⟩ := exists_lines h_tallies h_ne (h stat.1)
    exact ⟨lines, h_dump, tells_of_bounded h_tallies (h stat.1) h_lines⟩
  obtain ⟨parts, h_parts⟩ : ∃ parts, report order = .ok parts := by
    refine exists_mapM_eq_ok_iff.mpr fun stat h_mem => ?_
    obtain ⟨lines, h_dump, -⟩ := h_stat stat h_mem
    exact ⟨⟨stat.1, lines⟩, dumpStat_eq_ok_iff.mpr ⟨rfl, h_dump⟩⟩
  -- so are the names, which the map has once each
  have h_names : parts.map Part.name = order.map Sigma.fst :=
    map_of_mapM h_parts fun stat _ part h_part => (dumpStat_eq_ok_iff.mp h_part).1
  have h_keys : (parts.map Part.name).Perm stats.keys := h_names ▸ h_order.map _
  refine ⟨parts, h_parts, ?_, h_keys.nodup_iff.mpr stats.keys_nodup, fun name => ?_, fun part h_part => ?_⟩
  · rw [dump, h_parts]
    rfl
  · rw [h_keys.mem_iff, ← AList.mem_keys, h_recorded.mem_iff]
  · obtain ⟨stat, h_mem, h_eq⟩ := exists_of_mem_mapM h_parts h_part
    obtain ⟨h_name, h_lines⟩ := dumpStat_eq_ok_iff.mp h_eq
    obtain ⟨lines, h_dump, h_tells⟩ := h_stat stat h_mem
    rw [h_name, Except.ok.inj (h_lines.symm.trans h_dump)]
    exact h_tells

/-- **The histograms are faithful** just if, under each name, the values are from 1 up to 2^31 and none of the
counters exceeds 42949672. -/
theorem faithful_iff_bounded (calls : List (Str × ℤ)) :
    Faithful calls ↔ ∀ name, Bounded (valuesOf calls name) :=
  ⟨Faithful.bounded, faithful_of_bounded⟩

/-- An empty file has no logarithm, and 2^31 is printed as a negative number. -/
theorem not_faithful_sizes : ¬ Faithful [(str "size", 0)] ∧ ¬ Faithful [(str "size", 2 ^ 31)] := by
  constructor
  · intro h
    exact absurd (h.pos _ List.mem_cons_self) (by decide)
  · intro h
    have h_range := (h.bounded (str "size")).range (2 ^ 31) (mem_valuesOf.mpr List.mem_cons_self)
    exact absurd h_range.2 (by decide)

end GitlstreeFS.StatsHolder
