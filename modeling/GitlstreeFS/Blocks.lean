import GitlstreeFS.Text
import Mathlib.Algebra.Order.Ring.Nat

/-!
# Blocks

A long sequence is cut into blocks of one length, and the blocks may be anywhere. `l.flatMap f` is the
sequence, where `l` are the blocks in their order and `f a` is what is in the block `a`: the element at
`p` is the one at `p % k` in the `p / k`-th block.

`collect` is a loop that appends to such a list, in each of its runs what it finds.
-/

namespace GitlstreeFS.Blocks

variable {α β ε : Type} {f : α → List β} {k : ℕ}

/-! ### The sequence -/

/-- The sequence is as long as its blocks are. -/
theorem length_flatMap (h_len : ∀ a, (f a).length = k) (l : List α) :
    (l.flatMap f).length = l.length * k := by
  induction l with
  | nil => simp
  | cons a l ih => rw [List.flatMap_cons, List.length_append, ih, h_len, List.length_cons,
      Nat.succ_mul, Nat.add_comm]

/-- Whole blocks are taken off. -/
theorem drop_mul_flatMap (h_len : ∀ a, (f a).length = k) (l : List α) (b : ℕ) :
    (l.flatMap f).drop (b * k) = (l.drop b).flatMap f := by
  induction b generalizing l with
  | zero => simp
  | succ b ih =>
    cases l with
    | nil => simp
    | cons a l =>
      have h_first : (List.drop k (f a ++ l.flatMap f)) = l.flatMap f := by
        rw [← h_len a, List.drop_left]
      rw [List.flatMap_cons, Nat.succ_mul, Nat.add_comm, ← List.drop_drop, h_first, ih,
        List.drop_succ_cons]

/-- **The element at a position**: which block it is in, and where in this block. -/
theorem getElem?_flatMap (hk : 0 < k) (h_len : ∀ a, (f a).length = k) (l : List α) (p : ℕ) :
    (l.flatMap f)[p]? = l[p / k]?.bind fun a => (f a)[p % k]? := by
  have h_pos : p = p / k * k + p % k := by rw [Nat.mul_comm, Nat.div_add_mod]
  have h_drop : (l.flatMap f)[p]? = ((l.drop (p / k)).flatMap f)[p % k]? := by
    rw [← drop_mul_flatMap h_len, List.getElem?_drop, ← h_pos]
  have h_head : l[p / k]? = (l.drop (p / k)).head? := List.head?_drop.symm
  rw [h_drop, h_head]
  cases l.drop (p / k) with
  | nil => rfl
  | cons a l =>
    have h_lt : p % k < (f a).length := by
      rw [h_len]
      exact Nat.mod_lt p hk
    rw [List.flatMap_cons, List.getElem?_append_left h_lt]
    rfl

/-- A piece of a sequence, element by element. -/
theorem eq_take_drop_iff {s l : List β} {r : ℕ} :
    s = (l.drop r).take s.length ↔ ∀ i < s.length, l[r + i]? = s[i]? := by
  constructor
  · intro h i hi
    rw [← List.getElem?_drop, ← List.getElem?_take_of_lt hi, ← h]
  · intro h
    refine List.ext_getElem? fun i => ?_
    by_cases hi : i < s.length
    · rw [List.getElem?_take_of_lt hi, List.getElem?_drop, h i hi]
    · rw [List.getElem?_eq_none (Nat.le_of_not_lt hi), List.getElem?_take_eq_none (Nat.le_of_not_lt hi)]

/-! ### The loop -/

/-- The runs of the loop, from the first one to the `n`-th. -/
def collect (f : ℕ → Except ε (List α)) : ℕ → Except ε (List α)
  | 0 => .ok []
  | n + 1 => do
    let l ← collect f n
    return l ++ (← f n)

variable {f : ℕ → Except ε (List α)} {n : ℕ} {l : List α}

/-- **Rule for the loop**: it comes to its end just if all of its runs do, and then it has collected what
each of them appends. -/
theorem collect_eq_ok_iff :
    collect f n = .ok l ↔ ∃ g, (∀ i < n, f i = .ok (g i)) ∧ l = (List.range n).flatMap g := by
  induction n generalizing l with
  | zero =>
    constructor
    · intro h
      exact ⟨fun _ => [], fun i hi => absurd hi (Nat.not_lt_zero i), (Except.ok.inj h).symm⟩
    · rintro ⟨g, -, rfl⟩
      rfl
  | succ n ih =>
    rw [collect, bind_eq_ok_iff]
    constructor
    · rintro ⟨l₀, h₀, h⟩
      obtain ⟨s, hs, h_eq⟩ := bind_eq_ok_iff.mp h
      obtain ⟨g, hg, rfl⟩ := ih.mp h₀
      -- the last run is that of `n`, of which `g` says nothing yet
      refine ⟨Function.update g n s, fun i hi => ?_, ?_⟩
      · rcases Nat.lt_succ_iff_lt_or_eq.mp hi with h_lt | rfl
        · rw [Function.update_of_ne (Nat.ne_of_lt h_lt)]
          exact hg i h_lt
        · rw [Function.update_self]
          exact hs
      · have h_before : (List.range n).flatMap (Function.update g n s) = (List.range n).flatMap g := by
          refine List.flatMap_congr fun i hi => ?_
          rw [Function.update_of_ne (Nat.ne_of_lt (List.mem_range.mp hi))]
        rw [List.range_succ, List.flatMap_append, h_before, List.flatMap_singleton,
          Function.update_self]
        exact (Except.ok.inj h_eq).symm
    · rintro ⟨g, hg, rfl⟩
      refine ⟨_, ih.mpr ⟨g, fun i hi => hg i (Nat.lt_succ_of_lt hi), rfl⟩, ?_⟩
      rw [hg n (Nat.lt_succ_self n), List.range_succ, List.flatMap_append, List.flatMap_singleton]
      rfl

/-- The loop fails with what one of its runs fails with. -/
theorem exists_of_collect_eq_error {e : ε} (h : collect f n = .error e) : ∃ i < n, f i = .error e := by
  induction n with
  | zero => cases h
  | succ n ih =>
    rw [collect] at h
    obtain h_before | ⟨l, -, h_last⟩ := bind_eq_error_iff.mp h
    · obtain ⟨i, hi, h_run⟩ := ih h_before
      exact ⟨i, Nat.lt_succ_of_lt hi, h_run⟩
    · obtain h_run | ⟨s, -, h_pure⟩ := bind_eq_error_iff.mp h_last
      · exact ⟨n, Nat.lt_succ_self n, h_run⟩
      · cases h_pure

theorem collect_congr {f' : ℕ → Except ε (List α)} (h : ∀ i, f i = f' i) :
    collect f n = collect f' n :=
  congrArg (collect · n) (funext h)

/-- What a computation returns, if it does. -/
def result [Inhabited α] : Except ε α → α
  | .ok a => a
  | .error _ => default

/-- A loop in which each run computes something, and appends what this gives. -/
theorem collect_result_eq_ok_iff {γ : Type} [Inhabited γ] {e : ℕ → Except ε γ} {g : ℕ → γ → List α} :
    collect (fun i => do return g i (← e i)) n = .ok l
      ↔ (∀ i < n, e i = .ok (result (e i)))
        ∧ l = (List.range n).flatMap fun i => g i (result (e i)) := by
  rw [collect_eq_ok_iff]
  constructor
  · rintro ⟨g', hg', rfl⟩
    have h_run : ∀ i < n, e i = .ok (result (e i)) ∧ g' i = g i (result (e i)) := by
      intro i hi
      obtain ⟨a, ha, h_eq⟩ := bind_eq_ok_iff.mp (hg' i hi)
      rw [ha]
      exact ⟨rfl, (Except.ok.inj h_eq).symm⟩
    exact ⟨fun i hi => (h_run i hi).1,
      List.flatMap_congr fun i hi => (h_run i (List.mem_range.mp hi)).2⟩
  · rintro ⟨h_run, rfl⟩
    refine ⟨_, fun i hi => ?_, rfl⟩
    rw [h_run i hi]
    rfl

/-- Two loops of which the second goes on where the first has stopped. -/
theorem flatMap_range_add (g : ℕ → List α) (a b : ℕ) :
    (List.range (a + b)).flatMap g
      = (List.range a).flatMap g ++ (List.range b).flatMap fun i => g (a + i) := by
  rw [List.range_add, List.flatMap_append, List.flatMap_map]

/-- Where each run appends one element at most, no more are collected than there were runs. -/
theorem length_collected_le {g : ℕ → List α} (h_one : ∀ i < n, (g i).length ≤ 1) :
    ((List.range n).flatMap g).length ≤ n := by
  induction n with
  | zero => simp
  | succ n ih =>
    have h_before := ih fun i hi => h_one i (Nat.lt_succ_of_lt hi)
    have h_last := h_one n (Nat.lt_succ_self n)
    rw [List.range_succ, List.flatMap_append, List.length_append, List.flatMap_singleton]
    exact Nat.add_le_add h_before h_last

/-- If there are as many, each of the runs has appended one. -/
theorem exists_of_length_le {g : ℕ → List α} (h_one : ∀ i < n, (g i).length ≤ 1)
    (h_len : n ≤ ((List.range n).flatMap g).length) : ∀ i < n, ∃ a, g i = [a] := by
  intro i hi
  obtain ⟨b, rfl⟩ := Nat.exists_eq_add_of_lt hi
  -- the runs before the `i`-th have appended `i` at most, and those behind it `b`
  have h_before := length_collected_le fun j hj => h_one j (Nat.lt_trans hj hi)
  have h_behind := length_collected_le (n := b) (g := fun j => g (i + 1 + j)) fun j hj =>
    h_one (i + 1 + j) (by omega)
  rw [Nat.add_right_comm i b 1, flatMap_range_add, List.length_append, List.range_succ,
    List.flatMap_append, List.length_append, List.flatMap_singleton] at h_len
  exact List.length_eq_one_iff.mp (le_antisymm (h_one i hi) (by omega))

section One

variable {g : ℕ → List α} {a : ℕ → α}

/-- What is collected where each run appends one element. -/
theorem collected_eq_map (h_one : ∀ i < n, g i = [a i]) :
    (List.range n).flatMap g = (List.range n).map a := by
  rw [← List.flatMap_pure_eq_map]
  exact List.flatMap_congr fun j hj => h_one j (List.mem_range.mp hj)

theorem getElem?_collected (h_one : ∀ i < n, g i = [a i]) {i : ℕ} (hi : i < n) :
    ((List.range n).flatMap g)[i]? = some (a i) := by
  rw [collected_eq_map h_one, List.getElem?_map, List.getElem?_range hi]
  rfl

theorem length_collected (h_one : ∀ i < n, g i = [a i]) : ((List.range n).flatMap g).length = n := by
  rw [collected_eq_map h_one, List.length_map, List.length_range]

end One

end GitlstreeFS.Blocks
