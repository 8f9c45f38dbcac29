/-
# Greatest relations and assumptions

`F R x y` says that the pair `x, y` passes a local test whose recursive
questions `R` answers.  `UpTo F A` is the greatest relation in which every pair
is assumed by `A` or passes the test: with no assumptions, the greatest fixpoint
of `F`.  A procedure that decides `F` by recursion breaks cycles by assuming the
pair it is at; `upTo_le_upTo` says why that is sound.
-/

import Mathlib

namespace Dwarfpp
namespace Lib

variable {ι : Type} (F : (ι → ι → Prop) → ι → ι → Prop)

/-- The greatest relation each of whose pairs is assumed or passes the test. -/
def UpTo (A : ι → ι → Prop) (x y : ι) : Prop :=
  ∃ R : ι → ι → Prop, (∀ a b, R a b → A a b ∨ F R a b) ∧ R x y

variable {F} (hF : Monotone F) {A B : ι → ι → Prop}

theorem upTo_mono (h : ∀ a b, A a b → B a b) {x y : ι} (hxy : UpTo F A x y) : UpTo F B x y := by
  obtain ⟨R, hR, hxy⟩ := hxy
  exact ⟨R, fun a b hab => (hR a b hab).imp_left (h a b), hxy⟩

include hF

/-- **Unfolding.** -/
theorem upTo_iff {x y : ι} : UpTo F A x y ↔ A x y ∨ F (UpTo F A) x y := by
  constructor
  · rintro ⟨R, hR, hxy⟩
    have hle : R ≤ UpTo F A := fun a b hab => ⟨R, hR, hab⟩
    exact (hR x y hxy).imp_right (hF hle x y)
  · intro h
    refine ⟨fun a b => A a b ∨ F (UpTo F A) a b, fun a b hab => hab.imp_right ?_, h⟩
    refine hF (fun c d hcd => ?_) a b
    obtain ⟨R, hR, hcd⟩ := hcd
    have hle : R ≤ UpTo F A := fun a b hab => ⟨R, hR, hab⟩
    exact (hR c d hcd).imp_right (hF hle c d)

/-- **Discharging assumptions.**  Pairs that pass the test under their own assumption may be
assumed. -/
theorem upTo_le_upTo (h : ∀ a b, B a b → A a b ∨ F (UpTo F B) a b) {x y : ι}
    (hxy : UpTo F B x y) : UpTo F A x y := by
  refine ⟨UpTo F B, fun a b hab => ?_, hxy⟩
  rcases (upTo_iff hF).1 hab with hB | hstep
  · exact h a b hB
  · exact .inr hstep

omit hF in
/-- Lists related pointwise through a third one. -/
theorem forall₂_trans {α β γ : Type} {p : α → β → Prop} {q : β → γ → Prop} {r : α → γ → Prop}
    (h : ∀ a b c, p a b → q b c → r a c) {as : List α} {bs : List β} {cs : List γ}
    (hab : List.Forall₂ p as bs) (hbc : List.Forall₂ q bs cs) : List.Forall₂ r as cs := by
  induction hab generalizing cs with
  | nil =>
    cases hbc
    exact .nil
  | cons hp _ ih =>
    cases hbc with
    | cons hq hbc => exact .cons (h _ _ _ hp hq) (ih hbc)

end Lib
end Dwarfpp
