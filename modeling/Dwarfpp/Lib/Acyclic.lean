/-
# Ranks of acyclic relations

On a finite type a relation without cycles counts down: every element has a
rank, and its successors have lower ones.
-/

import Mathlib

namespace Dwarfpp
namespace Lib

/-- **An acyclic relation on a finite type has a rank**: the number of elements reached. -/
theorem exists_rank {α : Type} [Finite α] {r : α → α → Prop}
    (h : ∀ a, ¬Relation.TransGen r a a) : ∃ rank : α → ℕ, ∀ a b, r a b → rank b < rank a := by
  refine ⟨fun a => Set.ncard {b | Relation.TransGen r a b}, fun a b hab => ?_⟩
  refine Set.ncard_lt_ncard ⟨fun c hc => ?_, fun hle => ?_⟩ (Set.toFinite _)
  · exact Relation.TransGen.head hab hc
  · exact h b (hle (Relation.TransGen.single hab))

/-- **A relation with a rank is acyclic.** -/
theorem acyclic_of_rank {α : Type} {r : α → α → Prop} (rank : α → ℕ)
    (hrank : ∀ a b, r a b → rank b < rank a) : ∀ a, ¬Relation.TransGen r a a := by
  have hdown : ∀ {a b}, Relation.TransGen r a b → rank b < rank a := by
    intro a b hab
    induction hab with
    | single h => exact hrank _ _ h
    | tail _ h ih => exact (hrank _ _ h).trans ih
  exact fun a ha => lt_irrefl _ (hdown ha)

/-- **A relation without infinite chains is acyclic.** -/
theorem acyclic_of_acc {α : Type} {r : α → α → Prop} (h : ∀ a, Acc (fun b a => r a b) a) :
    ∀ a, ¬Relation.TransGen r a a := by
  intro a ha
  have hwf : WellFounded (Relation.TransGen fun b a => r a b) := (WellFounded.intro h).transGen
  exact hwf.irrefl.irrefl a (Relation.transGen_swap.1 ha)

/-- Ranks on a finite type are bounded. -/
theorem exists_bound {α : Type} [Finite α] (rank : α → ℕ) : ∃ n, ∀ a, rank a ≤ n := by
  obtain ⟨n, hn⟩ := (Set.finite_range rank).bddAbove
  exact ⟨n, fun a => hn ⟨a, rfl⟩⟩

end Lib
end Dwarfpp
