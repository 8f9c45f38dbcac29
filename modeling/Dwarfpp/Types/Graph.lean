/-
# Type DIEs

A root's type DIEs (`include/dwarfpp/dies.hpp`, `spec/dwarf_current.py`) as a
labelled graph over an arbitrary type `ι` of DIEs: the attributes and children
of a DIE that the algorithms on types read.  A reference to another type is
`none` where the attribute is absent, which stands for `void`.
-/

import Mathlib
import Dwarfpp.Basic
import Dwarfpp.Expr.LocExpr

namespace Dwarfpp
namespace Types

open Dwarfpp.Expr

-- Small graphs number their types.
instance neZeroTwo : NeZero 2 := ⟨by decide⟩
instance neZeroThree : NeZero 3 := ⟨by decide⟩
instance neZeroFour : NeZero 4 := ⟨by decide⟩
instance neZeroSix : NeZero 6 := ⟨by decide⟩
instance neZeroEight : NeZero 8 := ⟨by decide⟩

/-- The tags of type DIEs. -/
inductive Tag
  | baseType | unspecifiedType | stringType | subrangeType | enumerationType | arrayType
  | pointerType | referenceType | rvalueReferenceType
  | constType | volatileType | restrictType | packedType | sharedType
  | typedef | ptrToMemberType | setType | fileType
  | structureType | unionType | classType | interfaceType
  | subroutineType | subprogram
  deriving DecidableEq, Repr, Inhabited

/-- The class a tag's DIEs are of, as far as `may_equal` is concerned: the nearest one that
overrides it. -/
inductive TypeClass
  | base | unspecified | string | subrange | enumeration | array | typedef | ptrToMember
  | typeChain | withDataMembers | typeDescribingSubprogram
  deriving DecidableEq, Repr

/-- The class of a tag. -/
def Tag.cls : Tag → TypeClass
  | .baseType => .base
  | .unspecifiedType => .unspecified
  | .stringType => .string
  | .subrangeType => .subrange
  | .enumerationType => .enumeration
  | .arrayType => .array
  | .typedef => .typedef
  | .ptrToMemberType => .ptrToMember
  | .pointerType | .referenceType | .rvalueReferenceType
  | .constType | .volatileType | .restrictType | .packedType | .sharedType
  | .setType | .fileType => .typeChain
  | .structureType | .unionType | .classType | .interfaceType => .withDataMembers
  | .subroutineType | .subprogram => .typeDescribingSubprogram

/-- Whether `get_concrete_type()` goes on to the target: a `type_chain_die` that is no array and
holds no address. -/
def Tag.chains : Tag → Bool
  | .typedef | .ptrToMemberType | .setType | .fileType
  | .constType | .volatileType | .restrictType | .packedType | .sharedType => true
  | _ => false

/-- `loclist`. -/
abbrev Loclist := List LocExpr

/-- An `enumerator_die`. -/
structure Enumerator where
  name : Option String
  constValue : Option ℤ
  deriving DecidableEq, Repr, Inhabited

/-- A `data_member_die`: a member or, with `inheritance`, a base class.
`typeHandlingBitfields` is the type `find_or_create_type_handling_bitfields()` answers with, which
for a bitfield may be a DIE it made. -/
structure DataMember (ι : Type) where
  inheritance : Bool
  type : Option ι
  typeHandlingBitfields : Option ι
  dataMemberLocation : Option Loclist
  declaration : Option Bool
  deriving DecidableEq, Inhabited

/-- A `formal_parameter_die`.  `find_type()` also sees a type that another DIE has on its
behalf. -/
structure FormalParameter (ι : Type) where
  type : Option ι
  findType : Option ι
  deriving DecidableEq, Inhabited

/-- The languages a `DW_AT_language` is compared with. -/
inductive Language
  | c | c89 | cPlusPlus | c99 | fortran77 | fortran90 | fortran95 | other
  deriving DecidableEq, Repr, Inhabited

/-- What a type DIE asks its `compile_unit_die`: `namedChild` are the children found by name that
are types, `baseTypes` the base types among the children, and `encodingLookup` is the
specification's. -/
structure CompileUnit (ι : Type) where
  language : Language
  namedChild : String → Option ι
  baseTypes : List ι
  encodingLookup : ℕ → String
  addressSize : ℕ
  deriving Inhabited

/-- A type DIE.  `laterSiblings` are the type DIEs among the siblings that follow it. -/
structure TypeDie (ι : Type) where
  offset : ℕ
  enclosingCu : CompileUnit ι
  declaration : Option Bool
  tag : Tag
  name : Option String
  associatedName : Option String
  type : Option ι
  findType : Option ι
  encoding : ℕ
  byteSize : Option ℕ
  bitSize : Option ℕ
  bitOffset : Option ℕ
  dataBitOffset : Option ℕ
  stringLength : Option Loclist
  lowerBound : Option ℕ
  upperBound : Option ℕ
  count : Option ℕ
  enumerators : List Enumerator
  subranges : List ι
  dataMembers : List (DataMember ι)
  formalParameters : List (FormalParameter ι)
  isVariadic : Bool
  addressClass : Option ℕ
  depth : ℕ
  laterSiblings : List ι
  deriving Inhabited

/-- The type DIEs of a root. -/
abbrev TypeGraph (ι : Type) := ι → TypeDie ι

namespace TypeDie

variable {ι : Type} (d : TypeDie ι)

/-- `children().subseq_of<member_die>()`. -/
def members : List (DataMember ι) := d.dataMembers.filter fun c => !c.inheritance

end TypeDie

section Concrete

variable {ι : Type} (g : TypeGraph ι)

/-- `get_concrete_type()`, following at most `fuel` references. -/
def getConcreteType : ℕ → ι → Except Fault (Option ι)
  | 0, _ => .error .outOfSteps
  | fuel + 1, t =>
    if (g t).tag.chains then
      match (g t).type with
      | none => .ok none
      | some u => getConcreteType fuel u
    else .ok (some t)

/-- A concrete type is of a tag that chains no further. -/
theorem chains_of_getConcreteType {fuel : ℕ} {t u : ι}
    (h : getConcreteType g fuel t = .ok (some u)) : (g u).tag.chains = false := by
  induction fuel generalizing t with
  | zero => exact nomatch h
  | succ fuel ih =>
    rw [getConcreteType] at h
    split_ifs at h with htag
    · cases htype : (g t).type with
      | none =>
        rw [htype] at h
        exact nomatch h
      | some v =>
        rw [htype] at h
        exact ih h
    · obtain rfl := Option.some.inj (Except.ok.inj h)
      exact eq_false_of_ne_true htag

variable {g} in
/-- A longer walk to the concrete type returns the same. -/
theorem getConcreteType_mono {fuel fuel' : ℕ} (h : fuel ≤ fuel') (t : ι) :
    Lib.Below (getConcreteType g fuel t) (getConcreteType g fuel' t) := by
  induction fuel generalizing fuel' t with
  | zero => exact Lib.Below.error _ _
  | succ fuel ih =>
    obtain ⟨fuel', rfl⟩ : ∃ k, fuel' = k + 1 := ⟨fuel' - 1, by omega⟩
    rw [getConcreteType, getConcreteType]
    split_ifs
    · cases (g t).type with
      | none => exact Lib.Below.refl _
      | some u => exact ih (by omega) u
    · exact Lib.Below.refl _

end Concrete

end Types
end Dwarfpp
