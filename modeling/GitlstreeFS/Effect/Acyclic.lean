import Mathlib.Data.Fintype.Card
import Mathlib.Data.Set.Finite.Basic
import Mathlib.Logic.Relation

/-!
# Going on without coming back

A search goes from one place to the next, and there may be several. It comes to an end from a place that is
accessible, from whichever side it goes on. `ending_iff_neverBack` says when a place is: if only finitely
many places are come to, it is enough that none of them is come to again from itself.
-/

namespace Effect.Acyclic

open Relation (ReflTransGen TransGen)

variable {α : Type*} {r : α → α → Prop} {a b : α}

/-- The search from `a` ends. -/
def Ending (r : α → α → Prop) : α → Prop :=
  Acc (flip r)

/-- From no place that the search from `a` comes to it comes there again. -/
def NeverBack (r : α → α → Prop) (a : α) : Prop :=
  ∀ b, ReflTransGen r a b → ¬ TransGen r b b

/-- What does not end goes on. -/
theorem exists_of_not_ending (h : ¬ Ending r a) : ∃ b, r a b ∧ ¬ Ending r b := by
  by_contra h_none
  exact h ⟨a, fun b h_b => by_contra fun h_not => h_none ⟨b, h_b, h_not⟩⟩

theorem Ending.of_reflTransGen (h : Ending r a) (h_b : ReflTransGen r a b) : Ending r b := by
  induction h_b with
  | refl => exact h
  | tail _ h_step ih => exact ih.inv h_step

/-- An ending search does not come back. -/
theorem Ending.not_transGen (h : Ending r a) : ¬ TransGen r a a := by
  induction h with
  | intro a _ ih =>
    intro h_back
    obtain ⟨b, h_b, h_rest⟩ := TransGen.head'_iff.mp h_back
    exact ih b h_b (TransGen.tail' h_rest h_b)

/-- **A search ends** just if it never comes back, provided that it comes to finitely many places from
where it goes on. -/
theorem ending_iff_neverBack (h_finite : {b | ReflTransGen r a b ∧ ∃ c, r b c}.Finite) :
    Ending r a ↔ NeverBack r a := by
  constructor
  · exact fun h b h_b => (h.of_reflTransGen h_b).not_transGen
  · intro h_back
    -- on these places to come from one to the other is a strict order
    have := h_finite.to_subtype
    let after (x y : {b | ReflTransGen r a b ∧ ∃ c, r b c}) : Prop := TransGen r y.1 x.1
    have : IsTrans _ after := ⟨fun x y z h_xy h_yz => TransGen.trans h_yz h_xy⟩
    have : Std.Irrefl after := ⟨fun x => h_back x.1 x.2.1⟩
    have h_wf : WellFounded after := Finite.wellFounded_of_trans_of_irrefl after
    have h_ending : ∀ x : {b | ReflTransGen r a b ∧ ∃ c, r b c}, Ending r x.1 := by
      intro x
      induction x using h_wf.induction with
      | _ x ih =>
        refine ⟨_, fun c h_c => ?_⟩
        by_contra h_not
        obtain ⟨d, h_d, -⟩ := exists_of_not_ending h_not
        exact h_not (ih ⟨c, x.2.1.tail h_c, d, h_d⟩ (.single h_c))
    by_contra h_not
    obtain ⟨c, h_c, -⟩ := exists_of_not_ending h_not
    exact h_not (h_ending ⟨a, .refl, c, h_c⟩)

end Effect.Acyclic
