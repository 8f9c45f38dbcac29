/-
# Abstract equality of types

`types_abstractly_equal` of `src/dies.cpp` and the overrides of `abstractly_equals` behind it.
Each takes the concrete type of its argument and goes through a list of checks, some of which
compare other types in turn (`typesAbstractlyEqual_checks`).

`get_concrete_type` passes over sets, files and pointers to members as it passes over typedefs, so
the overrides for these answer `false` to everything.  `unspecified_type_die` has no override, and
comparing one has no end.
-/

import Dwarfpp.Lib.Conjunction
import Dwarfpp.Types.AbstractName

namespace Dwarfpp
namespace Types

open Lib

variable {ι : Type}

section Model

variable (g : TypeGraph ι) (containingType : ι → Option ι)

/-- `t ? t->get_concrete_type() : t`. -/
def concreteOf (fuel : ℕ) : Option ι → Except Fault (Option ι)
  | none => .ok none
  | some t => getConcreteType g fuel t

/-- `t.is_a<...>() && ...`. -/
def isAnd (p : Tag → Bool) (t : Option ι) (rest : ι → Except Fault Bool) : Except Fault Bool :=
  match t with
  | none => .ok false
  | some u => if p (g u).tag then rest u else .ok false

/-- The loop over the formal parameters of two types. -/
def sameParameters (eq : Option ι → Option ι → Except Fault Bool) :
    List (FormalParameter ι) → List (FormalParameter ι) → Except Fault Bool
  | [], [] => .ok true
  | [], _ :: _ => .ok false
  | _ :: _, [] => .ok false
  | fp :: fps, fp' :: fps' => do
    if ← eq fp.type fp'.type then sameParameters eq fps fps' else return false

/-- `abstractly_equals`, by the class of the DIE. -/
def abstractlyEquals (eq : Option ι → Option ι → Except Fault Bool) (fuel : ℕ) (self : ι)
    (t : Option ι) : Except Fault Bool := do
  let t ← concreteOf g fuel t
  match (g self).tag with
  | .baseType =>
    isAnd g (· = .baseType) t fun u =>
      .ok ((g u).encoding = (g self).encoding ∧ (g u).byteSize = (g self).byteSize ∧
        (g u).bitSize = (g self).bitSize ∧ (g u).bitOffset = (g self).bitOffset)
  | .structureType | .unionType | .classType | .interfaceType =>
    isAnd g (·.cls = .withDataMembers) t fun u =>
      .ok ((g u).arbitraryName = (g self).arbitraryName)
  | .enumerationType =>
    isAnd g (· = .enumerationType) t fun u => .ok ((g u).arbitraryName = (g self).arbitraryName)
  | .arrayType =>
    isAnd g (· = .arrayType) t fun u => do
      let count ← elementCount g u
      let ownCount ← elementCount g self
      return count = ownCount
  | .subrangeType =>
    isAnd g (· = .subrangeType) t fun u =>
      .ok ((g u).lowerBound = (g self).lowerBound ∧ (g u).upperBound = (g self).upperBound)
  | .stringType =>
    isAnd g (· = .stringType) t fun u =>
      .ok ((g u).fixedLengthInBytes = (g self).fixedLengthInBytes)
  | .setType => isAnd g (· = .setType) t fun u => eq (g u).type (g self).type
  | .fileType => isAnd g (· = .fileType) t fun u => eq (g u).type (g self).type
  | .pointerType | .referenceType | .rvalueReferenceType =>
    isAnd g (fun tag => tag.addressHolding ∧ tag = (g self).tag) t fun u =>
      eq (g u).type (g self).type
  | .ptrToMemberType =>
    isAnd g (· = .ptrToMemberType) t fun u => do
      if ← eq (containingType u) (containingType self) then eq (g u).type (g self).type
      else return false
  | .subroutineType | .subprogram =>
    isAnd g (·.cls = .typeDescribingSubprogram) t fun u => do
      if ← eq (g u).type (g self).type then
        if (g u).isVariadic = (g self).isVariadic then
          sameParameters eq (g self).formalParameters (g u).formalParameters
        else return false
      else return false
  | .typedef | .constType | .volatileType | .restrictType | .packedType | .sharedType
  | .unspecifiedType => do
    -- `type_die::abstractly_equals`: "should never recurse"
    let concrete ← getConcreteType g fuel self
    eq concrete t

/-- `types_abstractly_equal`. -/
def typesAbstractlyEqual : ℕ → Option ι → Option ι → Except Fault Bool
  | 0, _, _ => .error .outOfSteps
  | _ + 1, none, none => .ok true
  | fuel + 1, some t₁, t₂ => abstractlyEquals g containingType (typesAbstractlyEqual fuel) fuel t₁ t₂
  | fuel + 1, none, some t₂ =>
    abstractlyEquals g containingType (typesAbstractlyEqual fuel) fuel t₂ none

/-- The comparison comes to an end with an answer. -/
def ComparesTo (t u : Option ι) (b : Bool) : Prop :=
  Settles (fun fuel => typesAbstractlyEqual g containingType fuel t u) b

end Model

/-- The tags with an override of `abstractly_equals` that `get_concrete_type` passes over. -/
def Tag.passedOver : Tag → Bool
  | .setType | .fileType | .ptrToMemberType => true
  | _ => false

/-- The tags whose DIEs compare as `type_die` does: without an override. -/
def Tag.fallsBack : Tag → Bool
  | .typedef | .constType | .volatileType | .restrictType | .packedType | .sharedType
  | .unspecifiedType => true
  | _ => false

/-- What is compared of a concrete type itself. -/
inductive Head
  | base (encoding : ℕ) (byteSize bitSize bitOffset : Option ℕ)
  | members (name : String)
  | enumeration (name : String)
  | array (count : Option ℕ)
  | subrange (lower upper : Option ℕ)
  | string (length : Option ℕ)
  | address (tag : Tag)
  | subprogram (variadic : Bool)
  deriving DecidableEq

section Checks

variable (g : TypeGraph ι)

/-- The head of a concrete type; an array's count is asked for only if it has an element type, and
a type without an override has none. -/
def head (t : ι) : Option Head :=
  match (g t).tag with
  | .baseType => some (.base (g t).encoding (g t).byteSize (g t).bitSize (g t).bitOffset)
  | .structureType | .unionType | .classType | .interfaceType =>
    some (.members (g t).arbitraryName)
  | .enumerationType => some (.enumeration (g t).arbitraryName)
  | .arrayType => (elementCount g t).toOption.map .array
  | .subrangeType => some (.subrange (g t).lowerBound (g t).upperBound)
  | .stringType => some (.string (g t).fixedLengthInBytes)
  | .pointerType | .referenceType | .rvalueReferenceType => some (.address (g t).tag)
  | .subroutineType | .subprogram => some (.subprogram (g t).isVariadic)
  | _ => none

/-- The head, read off the class and the attributes. -/
def HasHead (t : ι) : Head → Prop
  | .base e b s o => (g t).tag = .baseType ∧ (g t).encoding = e ∧ (g t).byteSize = b ∧
      (g t).bitSize = s ∧ (g t).bitOffset = o
  | .members name => (g t).tag.cls = .withDataMembers ∧ (g t).arbitraryName = name
  | .enumeration name => (g t).tag = .enumerationType ∧ (g t).arbitraryName = name
  | .array count => (g t).tag = .arrayType ∧ elementCount g t = .ok count
  | .subrange l m => (g t).tag = .subrangeType ∧ (g t).lowerBound = l ∧ (g t).upperBound = m
  | .string l => (g t).tag = .stringType ∧ (g t).fixedLengthInBytes = l
  | .address tag => (g t).tag.addressHolding = true ∧ (g t).tag = tag
  | .subprogram v => (g t).tag.cls = .typeDescribingSubprogram ∧ (g t).isVariadic = v

/-- The types compared in turn. -/
def parts (t : ι) : List (Option ι) :=
  match (g t).tag with
  | .pointerType | .referenceType | .rvalueReferenceType => [(g t).type]
  | .subroutineType | .subprogram => (g t).type :: (g t).formalParameters.map (·.type)
  | _ => []

/-- The checks on two lists of parameters. -/
def parameterChecks :
    List (FormalParameter ι) → List (FormalParameter ι) → List (Check (Option ι × Option ι))
  | [], [] => []
  | [], _ :: _ => [.decided false]
  | _ :: _, [] => [.decided false]
  | fp :: fps, fp' :: fps' => .call (fp.type, fp'.type) :: parameterChecks fps fps'

/-- The checks of an override on two concrete types. -/
def concreteChecks (t u : ι) : Except Fault (List (Check (Option ι × Option ι))) :=
  match (g t).tag with
  | .arrayType =>
    if (g u).tag = .arrayType then do
      let count ← elementCount g u
      let ownCount ← elementCount g t
      return [.decided (count = ownCount)]
    else .ok [.decided false]
  | .pointerType | .referenceType | .rvalueReferenceType =>
    if (g u).tag = (g t).tag then .ok [.call ((g u).type, (g t).type)] else .ok [.decided false]
  | .subroutineType | .subprogram =>
    if (g u).tag.cls = .typeDescribingSubprogram then
      .ok (.call ((g u).type, (g t).type) :: .decided ((g u).isVariadic = (g t).isVariadic) ::
        parameterChecks (g t).formalParameters (g u).formalParameters)
    else .ok [.decided false]
  | _ => .ok [.decided (head g u = head g t)]

/-- The checks of an override, given the concrete type of the argument. -/
def ownChecks (self : ι) (t : Option ι) : Except Fault (List (Check (Option ι × Option ι))) :=
  if (g self).tag.passedOver then .ok [.decided false]
  else
    match t with
    | none => .ok [.decided false]
    | some t => concreteChecks g self t

/-- The checks of `abstractly_equals`. -/
def overrideChecks (fuel : ℕ) (self : ι) (t : Option ι) :
    Except Fault (List (Check (Option ι × Option ι))) := do
  let t ← concreteOf g fuel t
  if (g self).tag.fallsBack then do
    let concrete ← getConcreteType g fuel self
    return [.call (concrete, t)]
  else ownChecks g self t

/-- The checks of `types_abstractly_equal`. -/
def checks (fuel : ℕ) : Option ι × Option ι → Except Fault (List (Check (Option ι × Option ι)))
  | (none, none) => .ok []
  | (some t₁, t₂) => overrideChecks g fuel t₁ t₂
  | (none, some t₂) => overrideChecks g fuel t₂ none

end Checks

section Facts

variable {g : TypeGraph ι} {containingType : ι → Option ι} {fuel fuel' : ℕ} {t u : ι}
  {eq : Option ι → Option ι → Except Fault Bool}

theorem sameParameters_checks (fps fps' : List (FormalParameter ι)) :
    sameParameters eq fps fps' = allChecks (fun p => eq p.1 p.2) (parameterChecks fps fps') := by
  induction fps, fps' using sameParameters.induct with
  | case1 => rfl
  | case2 => rfl
  | case3 => rfl
  | case4 fp fps fp' fps' ih =>
    rw [sameParameters, parameterChecks, allChecks_call]
    refine bind_congr fun b => ?_
    split
    · exact ih
    · rfl

theorem head_eq_iff (h : Head) : head g u = some h ↔ HasHead g u h := by
  unfold head
  cases h <;> cases htag : (g u).tag <;>
    simp [HasHead, Tag.cls, Tag.addressHolding, htag, toOption_eq_some]

theorem chains_of_concreteOf {o : Option ι} (h : concreteOf g fuel o = .ok (some t)) :
    (g t).tag.chains = false := by
  cases o with
  | none => exact nomatch h
  | some u => exact chains_of_getConcreteType g h

/-- Comparing a class and then attributes is comparing heads. -/
theorem compared_head {A B : Prop} [Decidable A] [Decidable B] {h : Head} {self : ι}
    {f : Option ι × Option ι → Except Fault Bool} (hself : HasHead g self h)
    (hiff : HasHead g u h ↔ A ∧ B) :
    (if decide A = true then Except.ok (decide B) else Except.ok false) =
      Except.ok [Check.decided (decide (head g u = head g self))] >>= allChecks f := by
  rw [ok_bind, allChecks_singleton, (head_eq_iff h).2 hself]
  simp only [head_eq_iff, hiff]
  by_cases hA : A <;> simp [hA]

/-- **A comparison is its checks, one after the other.** -/
theorem abstractlyEquals_checks (self : ι) (t : Option ι) :
    abstractlyEquals g containingType eq fuel self t =
      overrideChecks g fuel self t >>= allChecks (fun p => eq p.1 p.2) := by
  rw [abstractlyEquals, overrideChecks, bind_assoc]
  cases hc : concreteOf g fuel t with
  | error e => rfl
  | ok c =>
    simp only [ok_bind]
    cases htag : (g self).tag
    case typedef | constType | volatileType | restrictType | packedType | sharedType
        | unspecifiedType =>
      simp only [Tag.fallsBack, if_true]
      cases getConcreteType g fuel self with
      | error e => rfl
      | ok s => exact (allChecks_singleton_call (f := fun p => eq p.1 p.2) (p := (s, c))).symm
    case setType | fileType | ptrToMemberType =>
      -- the argument's concrete type is none of these
      simp only [ownChecks, htag, Tag.passedOver, Tag.fallsBack, if_true, if_false,
        Bool.false_eq_true]
      cases c with
      | none => rfl
      | some u =>
        have hchains := chains_of_concreteOf hc
        refine (if_neg fun h => ?_)
        rw [of_decide_eq_true h] at hchains
        exact nomatch hchains
    all_goals
      simp only [ownChecks, htag, Tag.passedOver, Tag.fallsBack, if_false, Bool.false_eq_true]
      obtain _ | u := c
      · rfl
      simp only [isAnd, concreteChecks, htag]
    case ok.baseType.some =>
      exact compared_head (h := .base _ _ _ _) ⟨htag, rfl, rfl, rfl, rfl⟩ Iff.rfl
    case ok.enumerationType.some => exact compared_head (h := .enumeration _) ⟨htag, rfl⟩ Iff.rfl
    case ok.subrangeType.some => exact compared_head (h := .subrange _ _) ⟨htag, rfl, rfl⟩ Iff.rfl
    case ok.stringType.some => exact compared_head (h := .string _) ⟨htag, rfl⟩ Iff.rfl
    case ok.structureType.some | ok.unionType.some | ok.classType.some
        | ok.interfaceType.some =>
      exact compared_head (h := .members _) ⟨by rw [htag]; rfl, rfl⟩ Iff.rfl
    case ok.arrayType.some =>
      by_cases h : (g u).tag = .arrayType
      · rw [if_pos (decide_eq_true h), if_pos h]
        simp only [bind_assoc, pure_bind, allChecks_singleton]
        rfl
      · rw [if_neg (by simpa using h), if_neg h]
        rfl
    case ok.pointerType.some | ok.referenceType.some | ok.rvalueReferenceType.some =>
      split_ifs with h h' h'
      · rw [ok_bind, allChecks_singleton_call]
      · exact absurd (of_decide_eq_true h).2 h'
      · exact absurd (decide_eq_true ⟨by rw [h']; rfl, h'⟩) h
      · rfl
    case ok.subroutineType.some | ok.subprogram.some =>
      by_cases h : (g u).tag.cls = .typeDescribingSubprogram
      · rw [if_pos (decide_eq_true h), if_pos h, ok_bind, allChecks_call]
        refine bind_congr fun b => ?_
        rw [allChecks_decided, sameParameters_checks]
        simp only [decide_eq_true_eq]
        rfl
      · rw [if_neg (by simpa using h), if_neg h]
        rfl

theorem concreteOf_mono (h : fuel ≤ fuel') (t : Option ι) :
    Below (concreteOf g fuel t) (concreteOf g fuel' t) := by
  cases t with
  | none => exact Below.refl _
  | some t => exact getConcreteType_mono h t

theorem overrideChecks_mono (h : fuel ≤ fuel') (self : ι) (t : Option ι) :
    Below (overrideChecks g fuel self t) (overrideChecks g fuel' self t) := by
  refine (concreteOf_mono h t).bind fun c => ?_
  split
  · exact (getConcreteType_mono h self).bind fun _ => Below.refl _
  · exact Below.refl _

/-- **`types_abstractly_equal` is a recursive conjunction.** -/
theorem typesAbstractlyEqual_checks (g : TypeGraph ι) (containingType : ι → Option ι) :
    IsConjunction (checks g) fun fuel p => typesAbstractlyEqual g containingType fuel p.1 p.2 where
  zero _ _ := nofun
  succ fuel p := by
    match p with
    | (none, none) => rfl
    | (some t, u) => exact abstractlyEquals_checks t u
    | (none, some u) => exact abstractlyEquals_checks u none
  mono h p := by
    match p with
    | (none, none) => exact Below.refl _
    | (some t, u) => exact overrideChecks_mono h t u
    | (none, some u) => exact overrideChecks_mono h u none

end Facts

end Types
end Dwarfpp
