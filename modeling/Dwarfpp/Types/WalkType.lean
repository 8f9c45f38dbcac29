/-
# Walking the types a type refers to

`walk_type` of `src/dies.cpp`, with the functions it calls before and after each
type.  It carries the set of types it is inside of, and does nothing at one of
these.  It is the walk of `Lib.PathWalk` (`walkType_eq_walk`), so it ends on every
finite graph, properly bracketed, and visits what can be reached through types
that the first function accepts (`walkType_brackets_iff`), unless it asks for a
base type that a unit does not have.
-/

import Mathlib
import Dwarfpp.Lib.PathWalk
import Dwarfpp.Types.Edges

namespace Dwarfpp
namespace Types

open Lib Lib.PathWalk

variable {ι ρ : Type}

section Walk

variable (g : TypeGraph ι) (element : Reason ι → ρ)

/-- The types `walk_type` is called for at a type, each with its reason. `element` is the DIE that
a reason is. -/
def walkTargets : Option ι → Except Fault (List (Option ι × ρ))
  | none => .ok []
  | some t =>
    match (g t).tag.cls with
    | .typeChain | .typedef | .ptrToMember | .array =>
      .ok [((g t).findType, element (.type t))]
    | .withDataMembers =>
      .ok ((g t).dataMembers.mapIdx fun k c =>
        (c.typeHandlingBitfields, element (.dataMember t k)))
    | .subrange =>
      match (g t).findType with
      | some u => .ok [(some u, element (.type t))]
      | none => do
        let implicit ← (g t).enclosingCu.implicitSubrangeBaseType g
        return [(implicit, element (.type t))]
    | .enumeration =>
      match (g t).findType with
      | some u => .ok [(some u, element (.type t))]
      | none => do
        let implicit ← (g t).enclosingCu.implicitEnumBaseType
        return [(implicit, element (.type t))]
    | .typeDescribingSubprogram =>
      .ok (((g t).findType, element (.type t)) ::
        (g t).formalParameters.mapIdx fun k c => (c.findType, element (.formalParameter t k)))
    | .base | .unspecified => .ok []
    | .string => .error .assertFailed

local instance lawfulBEqOption [DecidableEq ι] : LawfulBEq (Option ι) := inferInstance

/-- `walk_type()`, nested at most `fuel` deep: `enter` is a call of `pre_f`, `leave` one of
`post_f`, and `walking` is `currently_walking`. -/
def walkType [DecidableEq ι] (preF : Option ι → ρ → Bool) :
    ℕ → List (Option ι) → Option ι → ρ → Logged (Visit (Option ι) ρ) Fault Unit
  | 0, _, _, _ => .lift (.error .outOfSteps)
  | fuel + 1, walking, t, reason =>
    if t ∈ walking then pure ()
    else do
      .event (.enter t reason) ()
      (if preF t reason then do
        let targets ← .lift (walkTargets g element t)
        targets.forM fun target => walkType preF fuel (t :: walking) target.1 target.2
      else pure ())
      .event (.leave t reason) ()

end Walk

section Facts

variable {g : TypeGraph ι} {element : Reason ι → ρ} {preF : Option ι → ρ → Bool} {t : Option ι}

/-- **`walk_type` is a walk that stops at the types of its path.** -/
theorem walkType_eq_walk [DecidableEq ι] (fuel : ℕ) (walking : List (Option ι)) (t : Option ι)
    (reason : ρ) : walkType g element preF fuel walking t reason =
      walk preF (walkTargets g element) .outOfSteps fuel walking (t, reason) := by
  induction fuel generalizing walking t reason with
  | zero => rfl
  | succ fuel ih =>
    have hround : (fun target : Option ι × ρ =>
        walkType g element preF fuel (t :: walking) target.1 target.2) =
          walk preF (walkTargets g element) .outOfSteps fuel (t :: walking) :=
      funext fun target => ih (t :: walking) target.1 target.2
    by_cases hmem : t ∈ walking
    · rw [walkType, walk, if_pos hmem, if_pos hmem]
    · rw [walkType, walk, if_neg hmem, if_neg hmem, hround]

/-- The types of a type are found if its first edge is. -/
theorem walkTargets_found_iff :
    (∃ targets, walkTargets g element t = .ok targets) ↔ HasFirstEdge g t := by
  have himplicit : ∀ {u : ι} {o : Except Fault (Option ι)},
      (∃ targets, (do let v ← o; return [(v, element (.type u))]) = Except.ok targets) ↔
        ∃ v, o = .ok v := by
    intro u o
    cases o with
    | ok v => exact iff_of_true ⟨_, rfl⟩ ⟨v, rfl⟩
    | error f => exact iff_of_false (fun ⟨v, h⟩ => nomatch h) (fun ⟨v, h⟩ => nomatch h)
  cases t with
  | none => exact iff_of_true ⟨_, rfl⟩ trivial
  | some u =>
    unfold HasFirstEdge walkTargets
    cases hcls : (g u).tag.cls <;> simp only [hcls]
    case string => exact iff_of_false (fun ⟨v, h⟩ => nomatch h) id
    case subrange | enumeration =>
      cases hfind : (g u).findType with
      | some v => exact iff_of_true ⟨_, rfl⟩ (fun h => nomatch h)
      | none => exact himplicit.trans ⟨fun h _ => h, fun h => h rfl⟩
    all_goals exact iff_of_true ⟨_, rfl⟩ trivial

end Facts

section Main

variable [DecidableEq ι] {g : TypeGraph ι}

/-- **`walk_type` ends, is properly bracketed and calls the first function for the types that can
be reached through accepted ones, exactly if the types of these are found.** -/
theorem walkType_brackets_iff [Finite ι] [DecidableEq ρ] (element : Reason ι → ρ)
    (preF : Option ι → ρ → Bool) (t : Option ι) (reason : ρ) :
    (∃ n, ∀ fuel, n < fuel → ∃ calls,
      walkType g element preF fuel [] t reason = ⟨calls, .ok ()⟩ ∧
      replay [] calls = some [] ∧
      ∀ u, (∃ r, .enter u r ∈ calls) ↔
        ∃ r, Reached preF (walkTargets g element) (t, reason) (u, r)) ↔
      ∀ u r, Reached preF (walkTargets g element) (t, reason) (u, r) → preF u r = true →
        HasFirstEdge g u := by
  have := Fintype.ofFinite ι
  constructor
  · rintro ⟨n, h⟩ u r hreach haccept
    obtain ⟨calls, hrun, -⟩ := h (n + 1) (Nat.lt_succ_self n)
    rw [walkType_eq_walk] at hrun
    exact walkTargets_found_iff.1 (found_of_walk hrun hreach haccept)
  · intro hfound
    have hpath : ∀ q : Option ι × ρ,
        Avoiding preF (walkTargets g element) [] (t, reason) q → preF q.1 q.2 = true →
          ∃ targets, walkTargets g element q.1 = .ok targets := fun q hq haccept =>
      walkTargets_found_iff.2 (hfound q.1 q.2 (avoiding_nil_iff.1 hq) haccept)
    refine ⟨(Finset.univ.filter (· ∉ ([] : List (Option ι)))).card, fun fuel hfuel => ?_⟩
    obtain ⟨calls, hrun⟩ := walk_total hpath hfuel
    refine ⟨calls, (walkType_eq_walk ..).trans hrun, ?_, fun u => mem_walk_iff hrun⟩
    have hreplay : replay [] (calls ++ []) = replay [] [] := replay_walk hrun
    rwa [List.append_nil] at hreplay

/-- A list's node: a structure with a pointer to it. -/
def listLink (t : Fin 2) : TypeDie (Fin 2) :=
  if t = 0 then
    { (default : TypeDie (Fin 2)) with
      tag := .structureType, dataMembers := [⟨false, some 1, some 1, none, none⟩] }
  else { (default : TypeDie (Fin 2)) with tag := .pointerType, findType := some 0 }

/-- The walk from the structure ends, and calls both functions for both types. -/
theorem listLink_walked :
    ∃ n, ∀ fuel, n < fuel → ∃ calls,
      walkType listLink some (fun _ _ => true) fuel [] (some 0) none = ⟨calls, .ok ()⟩ ∧
      replay [] calls = some [] ∧
      ∀ u, (∃ r, .enter u r ∈ calls) ↔ ∃ r,
        Reached (fun _ _ => true) (walkTargets listLink some) (some 0, none) (u, r) :=
  (walkType_brackets_iff some (fun _ _ => true) (some 0) none).2 fun u _ _ _ =>
    match u with
    | none | some 0 | some 1 => trivial

/-- An enumeration without a type, in a unit of C that has no `int`. -/
def untypedEnumeration (_ : Fin 1) : TypeDie (Fin 1) :=
  { (default : TypeDie (Fin 1)) with tag := .enumerationType }

/-- **The walk from the enumeration fails an assertion.** -/
theorem untypedEnumeration_not_walked :
    ¬∃ n, ∀ fuel, n < fuel → ∃ calls,
      walkType untypedEnumeration some (fun _ _ => true) fuel [] (some 0) none =
        ⟨calls, .ok ()⟩ ∧
      replay [] calls = some [] ∧
      ∀ u, (∃ r, .enter u r ∈ calls) ↔ ∃ r,
        Reached (fun _ _ => true) (walkTargets untypedEnumeration some) (some 0, none)
          (u, r) := by
  rintro ⟨n, h⟩
  obtain ⟨calls, hrun, -⟩ := h (n + 1) (Nat.lt_succ_self n)
  exact nomatch (Logged.mk.inj hrun).2

end Main

end Types
end Dwarfpp
