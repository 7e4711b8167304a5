import Mathlib.Order.Preorder.Chain

/-!
# Comparisons of an ordered container

What a `std::map` asks of the comparison of its keys (`StrictWeakOn`), where keys that are equivalent are
to be equal. A comparison that is read off a partial order, by `¬ b ≤ a` for `a < b`, gives this on the
chains of the order, and on no other set of keys.
-/

/-- The relation is a strict weak ordering of the keys in `K`, and of two different keys one is less. -/
structure StrictWeakOn {α : Type} (lt : α → α → Prop) (K : Set α) : Prop where
  irrefl : ∀ a ∈ K, ¬ lt a a
  asymm : ∀ a ∈ K, ∀ b ∈ K, lt a b → ¬ lt b a
  trans : ∀ a ∈ K, ∀ b ∈ K, ∀ c ∈ K, lt a b → lt b c → lt a c
  equivalent_iff : ∀ a ∈ K, ∀ b ∈ K, (¬ lt a b ∧ ¬ lt b a) ↔ a = b

variable {α : Type} {le : α → α → Prop} [IsPartialOrder α le] {K : Set α}

/-- In a chain one of two elements is below the other, also if they are the same. -/
theorem IsChain.below (h : IsChain le K) {a b : α} (ha : a ∈ K) (hb : b ∈ K) : le a b ∨ le b a := by
  by_cases h_eq : a = b
  · exact .inl (h_eq ▸ refl a)
  · exact h ha hb h_eq

/-- **The complement of a partial order** orders just the chains. -/
theorem strictWeakOn_not_le_iff : StrictWeakOn (fun a b => ¬ le b a) K ↔ IsChain le K := by
  constructor
  · intro h a ha b hb _
    by_contra h_apart
    rw [not_or] at h_apart
    exact h.asymm a ha b hb h_apart.2 h_apart.1
  · intro h
    refine ⟨fun a _ h_lt => h_lt (refl a), ?_, ?_, ?_⟩
    · intro a ha b hb h_lt h_gt
      exact (h.below ha hb).elim h_gt h_lt
    · -- two steps up the chain
      intro a ha b hb c hc h_ab h_bc h_ca
      have h_le : le b c := (h.below hb hc).resolve_right h_bc
      exact h_ab (Trans.trans h_le h_ca)
    · intro a _ b _
      rw [not_not, not_not]
      constructor
      · rintro ⟨h_ba, h_ab⟩
        exact antisymm h_ab h_ba
      · rintro rfl
        exact ⟨refl a, refl a⟩
