/-
# Abstract names

The names that `src/dies.cpp` gives types independently of where their DIEs are:
`arbitrary_name`, the canonical names of base types, and `print_abstract_name`,
which spells out what a type is made of and stops at types with a name of their
own.  The recursion of `print_abstract_name` is bounded by `fuel`.  It returns
for every type exactly if no type's name goes back to it (`abstractName_returns_iff`).

`type_die::print_abstract_name` also asserts that it does not call itself for the
same DIE without another such call in between; that can only fail in a recursion
without end, and is left out.
-/

import Dwarfpp.Lib.Acyclic
import Dwarfpp.Types.Edges

namespace Dwarfpp
namespace Types

open Lib

variable {ι : Type}

/-- `implicit_array_base()`. -/
def CompileUnit.implicitArrayBase (cu : CompileUnit ι) : Option ℕ :=
  match cu.language with
  | .c | .c89 | .cPlusPlus | .c99 => some 0
  | .fortran77 | .fortran90 | .fortran95 => some 1
  | .other => none

/-- `*o`, where `o` must not be empty. -/
def deref {α : Type} : Option α → Except Fault α
  | some a => .ok a
  | none => .error .undefinedBehaviour

/-- Whether a tag's DIEs are an `address_holding_type_die`. -/
def Tag.addressHolding : Tag → Bool
  | .pointerType | .referenceType | .rvalueReferenceType => true
  | _ => false

namespace TypeDie

variable (d : TypeDie ι)

/-- `arbitrary_name()`. -/
def arbitraryName : String :=
  match d.name with
  | some name => name
  | none =>
    match d.associatedName with
    | some name => name
    | none => "0x" ++ String.ofList (Nat.toDigits 16 d.offset)

/-- `base_type_die::calculate_byte_size()`. -/
def baseByteSize : Option ℕ :=
  match d.byteSize with
  | some n => some n
  | none => d.bitSize.map fun n => if n % 8 = 0 then n / 8 else 1 + n / 8

/-- `bit_size_and_offset()`, both `unsigned`. -/
def bitSizeAndOffset : Except Fault (ℕ × ℕ) := do
  let bitSize ← deref (d.bitSize.or (d.baseByteSize.map (8 * ·)))
  let bitOffset := (d.dataBitOffset.or d.bitOffset).getD 0
  return (bitSize % 2 ^ 32, bitOffset % 2 ^ 32)

end TypeDie

/-- `canonical_name_for()`. -/
def canonicalNameFor (encodingLookup : ℕ → String) (encoding byteSize bitSize bitOffset : ℕ) :
    Except Fault String := do
  let encodingName := encodingLookup encoding
  assert ("DW_ATE_".toList <+: encodingName.toList)
  let name :=
    if encoding = 5 then "int"
    else if encoding = 7 then "uint"
    else String.ofList (encodingName.toList.drop 7)
  let suffix :=
    if bitOffset = 0 ∧ bitSize = 8 * byteSize % 2 ^ 32 then "" else "$" ++ toString bitOffset
  return name ++ "$" ++ toString bitSize ++ suffix

/-- `get_canonical_name()`. -/
def TypeDie.getCanonicalName (d : TypeDie ι) : Except Fault String :=
  if d.encoding = 0 then .ok "__uninterpreted_byte"
  else do
    let byteSize ← deref d.byteSize
    let (bitSize, bitOffset) ← d.bitSizeAndOffset
    canonicalNameFor d.enclosingCu.encodingLookup d.encoding (byteSize % 2 ^ 32) bitSize bitOffset

/-- `fixed_length_in_bytes()`. -/
def TypeDie.fixedLengthInBytes (d : TypeDie ι) : Option ℕ :=
  match d.stringLength with
  | some _ => none
  | none => d.byteSize

/-- The difference of two `Dwarf_Unsigned`. -/
def unsignedSub (a b : ℕ) : ℕ := (BitVec.ofNat 64 a - BitVec.ofNat 64 b).toNat

section Counts

variable (g : TypeGraph ι)

/-- The count of one subrange in `dimension_element_counts()`. -/
def subrangeElementCount (implicitLowerBound : Option ℕ) (d : TypeDie ι) : Option ℕ :=
  match d.count with
  | some n => some n
  | none =>
    match d.lowerBound.or implicitLowerBound with
    | none => none
    | some lower => d.upperBound.map fun upper => (unsignedSub upper lower + 1) % 2 ^ 64

/-- `dimension_element_counts()`. -/
def dimensionElementCounts (t : ι) : Except Fault (List (Option ℕ)) := do
  assert ((g t).type.isSome)
  return (g t).subranges.map fun s =>
    subrangeElementCount (g t).enclosingCu.implicitArrayBase (g s)

/-- `element_count()`: none if a dimension has none, and none without dimensions. -/
def elementCount (t : ι) : Except Fault (Option ℕ) := do
  let allCounts ← dimensionElementCounts g t
  match allCounts.mapM id with
  | some (n :: ns) => return some (ns.foldl (fun total count => total * count % 2 ^ 64) n)
  | _ => return none

/-- `ultimate_element_type()`, from a concrete type. -/
def ultimateElementType : ℕ → ι → Except Fault (Option ι)
  | 0, _ => .error .outOfSteps
  | fuel + 1, cur =>
    if (g cur).tag = .arrayType then
      match (g cur).type with
      | none => .ok none
      | some el => do
        match ← getConcreteType g fuel el with
        | none => return none
        | some next => ultimateElementType fuel next
    else .ok (some cur)

/-- `ultimate_element_count()`, from a concrete type and the count so far. -/
def ultimateElementCount : ℕ → ℕ → ι → Except Fault (Option ℕ)
  | 0, _, _ => .error .outOfSteps
  | fuel + 1, count, cur =>
    if (g cur).tag = .arrayType then do
      match ← elementCount g cur with
      | none => return none
      | some n =>
        match (g cur).type with
        | none => return some (count * n % 2 ^ 64)
        | some el =>
          match ← getConcreteType g fuel el with
          | none => return some (count * n % 2 ^ 64)
          | some next => ultimateElementCount fuel (count * n % 2 ^ 64) next
    else .ok (some count)

end Counts

section Names

variable (g : TypeGraph ι)

/-- What is printed before the abstract name of the type referred to, for the tags that have such a
mark. -/
def Tag.mark : Tag → Option String
  | .setType => some "__SET_"
  | .fileType => some "__FILE_"
  | .pointerType => some "__PTR_"
  | .referenceType => some "__REF_"
  | .rvalueReferenceType => some "__RR_"
  | .ptrToMemberType => some "__MEMPTR_"
  | _ => none

/-- `abstract_name_for_type()`: what the overrides of `print_abstract_name` print. -/
def abstractName : ℕ → Option ι → Except Fault String
  | 0, _ => .error .outOfSteps
  | _ + 1, none => .ok "void"
  | fuel + 1, some t =>
    match (g t).tag.mark with
    | some mark => do
      let target ← abstractName fuel (g t).type
      return mark ++ target
    | none =>
      match (g t).tag.cls with
      | .unspecified => .ok "void"
      | .base => (g t).getCanonicalName
      | .withDataMembers | .enumeration => .ok (g t).arbitraryName
      | .array => do
        let count ← elementCount g t
        let element ← abstractName fuel (g t).type
        return "__ARR" ++ (match count with | some n => toString n | none => "") ++ "_" ++ element
      | .subrange => do
        let lower := (g t).lowerBound.getD 0
        let length := match (g t).upperBound, (g t).lowerBound with
          | some u, some l => unsignedSub u l
          | _, _ => 0
        let base ← abstractName fuel (g t).type
        return "__SUBR" ++ toString lower ++ "_" ++ toString length ++ "_" ++ base
      | .string =>
        .ok ("__STR" ++ toString ((g t).fixedLengthInBytes.getD 0) ++ "__1")
      | .typeDescribingSubprogram => do
        let arguments ← (g t).formalParameters.zipIdx.mapM fun (fp, argnum) => do
          let s ← abstractName fuel fp.findType
          return "__ARG" ++ toString argnum ++ "_" ++ s
        let result ← abstractName fuel (g t).type
        return "__FUN_FROM_" ++ String.join arguments ++
          (if (g t).isVariadic then "__VA_" else "") ++ "__FUN_TO_" ++ result
      | .typedef | .typeChain | .ptrToMember => do
        let concrete ← getConcreteType g fuel t
        abstractName fuel concrete

/-- The types that a type's abstract name is made from, void included. -/
def nameOperands (t : ι) : List (Option ι) :=
  match (g t).tag.cls with
  | .withDataMembers | .enumeration | .base | .unspecified | .string => []
  | .typeDescribingSubprogram => (g t).formalParameters.map (·.findType) ++ [(g t).type]
  | .typedef | .typeChain | .ptrToMember | .array | .subrange => [(g t).type]

/-- One type's abstract name is made from another. -/
def NameLink (t u : ι) : Prop := some u ∈ nameOperands g t

/-- What a type's abstract name takes for granted: that a base type's canonical name can be made,
and that an array has an element type. -/
def NameChecked (t : ι) : Prop :=
  match (g t).tag.cls with
  | .base => ∃ s, (g t).getCanonicalName = .ok s
  | .array => (g t).type.isSome
  | _ => True

end Names

/-! ### Where abstract names are found -/

section Facts

variable {g : TypeGraph ι} {fuel fuel' : ℕ} {t : ι}

/-- **A longer recursion finds the same names.** -/
theorem abstractName_mono (h : fuel ≤ fuel') (t : Option ι) :
    Below (abstractName g fuel t) (abstractName g fuel' t) := by
  induction fuel generalizing fuel' t with
  | zero => exact Below.error _ _
  | succ fuel ih =>
    obtain ⟨fuel', rfl⟩ : ∃ k, fuel' = k + 1 := ⟨fuel' - 1, by omega⟩
    have hle : fuel ≤ fuel' := by omega
    cases t with
    | none => exact Below.refl _
    | some t =>
      rw [abstractName, abstractName]
      cases (g t).tag.mark with
      | some mark => exact (ih hle _).bind fun _ => Below.refl _
      | none =>
        cases (g t).tag.cls with
        | unspecified | base | withDataMembers | enumeration | string => exact Below.refl _
        | array => exact (Below.refl _).bind fun _ => (ih hle _).bind fun _ => Below.refl _
        | subrange => exact (ih hle _).bind fun _ => Below.refl _
        | typeDescribingSubprogram =>
          refine (Below.mapM (fun fp => (ih hle _).bind fun _ => Below.refl _) _).bind fun _ => ?_
          exact (ih hle _).bind fun _ => Below.refl _
        | typedef | typeChain | ptrToMember =>
          exact (getConcreteType_mono hle t).bind fun _ => ih hle _

/-- A type that chains is named after the type it refers to. -/
theorem nameOperands_of_chains (h : (g t).tag.chains = true) :
    nameOperands g t = [(g t).type] := by
  unfold nameOperands
  cases htag : (g t).tag <;> simp_all [Tag.chains, Tag.cls]

theorem dimensionElementCounts_eq (h : (g t).type.isSome = true) :
    dimensionElementCounts g t = .ok ((g t).subranges.map fun s =>
      subrangeElementCount (g t).enclosingCu.implicitArrayBase (g s)) := by
  rw [dimensionElementCounts, assert_ok h]
  rfl

theorem elementCount_returns_iff :
    (∃ n, elementCount g t = .ok n) ↔ (g t).type.isSome = true := by
  by_cases h : (g t).type.isSome = true
  · refine iff_of_true ?_ h
    rw [elementCount, dimensionElementCounts_eq h, ok_bind]
    split
    · exact ⟨_, rfl⟩
    · exact ⟨_, rfl⟩
  · refine iff_of_false (fun ⟨n, hn⟩ => ?_) h
    rw [elementCount, dimensionElementCounts, assert_error h] at hn
    exact nomatch hn

/-- A typedef or a qualified type is named as its concrete type is. -/
theorem abstractName_through (hchains : (g t).tag.chains = true) (hmark : (g t).tag.mark = none) :
    abstractName g (fuel + 1) (some t) =
      (do let concrete ← getConcreteType g fuel t; abstractName g fuel concrete) := by
  rw [abstractName]
  cases htag : (g t).tag <;> simp_all [Tag.chains, Tag.mark, Tag.cls]

/-- A type that is not just looked through has a name if it passes its check and the types that
make its name have theirs. -/
theorem abstractName_returns_step
    (hthrough : (g t).tag.chains = true → (g t).tag.mark ≠ none) :
    (∃ s, abstractName g (fuel + 1) (some t) = .ok s) ↔
      NameChecked g t ∧ ∀ o ∈ nameOperands g t, ∃ s, abstractName g fuel o = .ok s := by
  have hone : ∀ {o : Option ι} {f : String → String},
      (∃ s, (do let x ← abstractName g fuel o; return f x) = Except.ok s) ↔
        ∃ s, abstractName g fuel o = .ok s := by
    intro o f
    constructor
    · rintro ⟨s, h⟩
      obtain ⟨x, hx, -⟩ := bind_eq_ok.1 h
      exact ⟨x, hx⟩
    · rintro ⟨x, hx⟩
      exact ⟨f x, by rw [hx]; rfl⟩
  rw [abstractName]
  cases hmark : (g t).tag.mark with
  | some mark =>
    have hops : nameOperands g t = [(g t).type] ∧ NameChecked g t := by
      unfold nameOperands NameChecked
      cases htag : (g t).tag <;> simp_all [Tag.mark, Tag.cls]
    rw [hops.1, List.forall_mem_singleton]
    exact hone.trans ⟨fun h => ⟨hops.2, h⟩, fun h => h.2⟩
  | none =>
    unfold nameOperands NameChecked
    cases hcls : (g t).tag.cls <;> simp only
    case unspecified | string | withDataMembers | enumeration =>
      exact iff_of_true ⟨_, rfl⟩ ⟨trivial, fun o ho => absurd ho List.not_mem_nil⟩
    case base => exact ⟨fun h => ⟨h, fun o ho => absurd ho List.not_mem_nil⟩, fun h => h.1⟩
    case subrange =>
      rw [List.forall_mem_singleton]
      exact hone.trans ⟨fun h => ⟨trivial, h⟩, fun h => h.2⟩
    case array =>
      rw [List.forall_mem_singleton, ← elementCount_returns_iff]
      constructor
      · rintro ⟨s, h⟩
        obtain ⟨n, hn, h⟩ := bind_eq_ok.1 h
        exact ⟨⟨n, hn⟩, hone.1 ⟨s, h⟩⟩
      · rintro ⟨⟨n, hn⟩, h⟩
        simp only [hn, ok_bind]
        exact hone.2 h
    case typeDescribingSubprogram =>
      have hargs : (∃ args, (g t).formalParameters.zipIdx.mapM (fun x => do
            let s ← abstractName g fuel x.1.findType
            return "__ARG" ++ toString x.2 ++ "_" ++ s) = Except.ok args) ↔
          ∀ fp ∈ (g t).formalParameters, ∃ s, abstractName g fuel fp.findType = .ok s := by
        rw [mapM_returns_iff]
        constructor
        · intro h fp hfp
          obtain ⟨k, hk⟩ := List.getElem?_of_mem hfp
          exact hone.1 (h (fp, k) (List.mk_mem_zipIdx_iff_getElem?.2 hk))
        · rintro h ⟨fp, k⟩ hfp
          exact hone.2 (h fp (List.mem_of_getElem? (List.mk_mem_zipIdx_iff_getElem?.1 hfp)))
      constructor
      · rintro ⟨s, h⟩
        obtain ⟨args, hmap, h⟩ := bind_eq_ok.1 h
        refine ⟨trivial, fun o ho => ?_⟩
        rcases List.mem_append.1 ho with ho | ho
        · obtain ⟨fp, hfp, rfl⟩ := List.mem_map.1 ho
          exact hargs.1 ⟨args, hmap⟩ fp hfp
        · rw [List.mem_singleton.1 ho]
          exact hone.1 ⟨s, h⟩
      · rintro ⟨-, h⟩
        obtain ⟨args, hmap⟩ := hargs.2 fun fp hfp =>
          h _ (List.mem_append_left _ (List.mem_map_of_mem hfp))
        have hres := h (g t).type (List.mem_append_right _ (List.mem_singleton_self _))
        obtain ⟨s, hs⟩ := hres
        exact ⟨_, bind_eq_ok.2 ⟨args, hmap, by rw [hs]; rfl⟩⟩
    all_goals
      refine absurd hmark (hthrough ?_)
      cases htag : (g t).tag <;> simp_all [Tag.chains, Tag.mark, Tag.cls]

/-- A rank that falls along the links bounds the way to a concrete type. -/
theorem getConcreteType_of_rank {rank : ι → ℕ} (hrank : ∀ t u, NameLink g t u → rank u < rank t)
    (h : rank t < fuel) :
    ∃ o, getConcreteType g fuel t = .ok o ∧
      ∀ c, o = some c → (c = t ∧ (g t).tag.chains = false) ∨ rank c < rank t := by
  induction fuel generalizing t with
  | zero => omega
  | succ fuel ih =>
    rw [getConcreteType]
    cases hchains : (g t).tag.chains with
    | false => exact ⟨some t, rfl, fun c hc => .inl ⟨(Option.some.inj hc).symm, rfl⟩⟩
    | true =>
      cases htype : (g t).type with
      | none => exact ⟨none, rfl, fun c hc => by cases hc⟩
      | some u =>
        have hless : rank u < rank t := by
          refine hrank t u ?_
          rw [NameLink, nameOperands_of_chains hchains, htype]
          exact List.mem_singleton_self _
        obtain ⟨o, ho, hc⟩ := ih (show rank u < fuel by omega)
        refine ⟨o, ho, fun c hoc => .inr ?_⟩
        rcases hc c hoc with ⟨rfl, -⟩ | hless'
        · exact hless
        · exact hless'.trans hless

/-- The same bounds the recursion that prints a name. -/
theorem abstractName_of_rank {rank : ι → ℕ} (hrank : ∀ t u, NameLink g t u → rank u < rank t)
    (hchecked : ∀ t, NameChecked g t) {o : Option ι} (h : ∀ t, o = some t → rank t + 1 < fuel)
    (hpos : 0 < fuel) : ∃ s, abstractName g fuel o = .ok s := by
  induction fuel generalizing o with
  | zero => omega
  | succ fuel ih =>
    cases o with
    | none => exact ⟨_, rfl⟩
    | some t =>
      have hfuel : rank t + 1 < fuel + 1 := h t rfl
      by_cases hthrough : (g t).tag.chains = true → (g t).tag.mark ≠ none
      · refine (abstractName_returns_step hthrough).2 ⟨hchecked t, fun o ho => ?_⟩
        refine ih (fun u hu => ?_) (by omega)
        have hless := hrank t u (show some u ∈ nameOperands g t from hu ▸ ho)
        omega
      · obtain ⟨hchains, hmark⟩ := Classical.not_imp.1 hthrough
        obtain ⟨c, hc, hcless⟩ := getConcreteType_of_rank hrank (show rank t < fuel by omega)
        obtain ⟨s, hs⟩ := ih (o := c) (fun u hu => by
          rcases hcless u hu with ⟨-, hfalse⟩ | hless
          · rw [hchains] at hfalse
            cases hfalse
          · omega) (by omega)
        refine ⟨s, ?_⟩
        rw [abstractName_through hchains (not_not.1 hmark), hc]
        exact hs

/-- A concrete type found from a type: no chain of links leads on for ever from the type if none
does from the concrete one. -/
theorem acc_of_getConcreteType {o : Option ι} (h : getConcreteType g fuel t = .ok o)
    (hacc : ∀ c, o = some c → Acc (fun u t => NameLink g t u) c) :
    Acc (fun u t => NameLink g t u) t := by
  induction fuel generalizing t with
  | zero => exact nomatch h
  | succ fuel ih =>
    rw [getConcreteType] at h
    split_ifs at h with hchains
    · refine Acc.intro t fun u hu => ?_
      rw [NameLink, nameOperands_of_chains hchains] at hu
      rw [← List.mem_singleton.1 hu] at h
      exact ih h
    · exact hacc t (Except.ok.inj h).symm

/-- **From a type that has a name no chain of links leads on for ever.** -/
theorem acc_of_abstractName {s : String} (h : abstractName g fuel (some t) = .ok s) :
    Acc (fun u t => NameLink g t u) t := by
  induction fuel generalizing t s with
  | zero => exact nomatch h
  | succ fuel ih =>
    by_cases hthrough : (g t).tag.chains = true → (g t).tag.mark ≠ none
    · obtain ⟨-, hops⟩ := (abstractName_returns_step hthrough).1 ⟨s, h⟩
      refine Acc.intro t fun u hu => ?_
      obtain ⟨s', hs'⟩ := hops _ hu
      exact ih hs'
    · obtain ⟨hchains, hmark⟩ := Classical.not_imp.1 hthrough
      rw [abstractName_through hchains (not_not.1 hmark)] at h
      obtain ⟨c, hc, hname⟩ := bind_eq_ok.1 h
      exact acc_of_getConcreteType hc fun u hu => ih (hu ▸ hname)

/-- A type that has a name passes its check. -/
theorem nameChecked_of_abstractName {s : String} (h : abstractName g fuel (some t) = .ok s) :
    NameChecked g t := by
  cases fuel with
  | zero => exact nomatch h
  | succ fuel =>
    by_cases hthrough : (g t).tag.chains = true → (g t).tag.mark ≠ none
    · exact ((abstractName_returns_step hthrough).1 ⟨s, h⟩).1
    · unfold NameChecked
      cases htag : (g t).tag <;> simp_all [Tag.chains, Tag.cls]

/-- **Every type has an abstract name exactly if all pass their checks and no type's name is made
from its own.** -/
theorem abstractName_returns_iff [Finite ι] :
    (∀ t, ∃ n, ∀ fuel, n < fuel → ∃ s, abstractName g fuel (some t) = .ok s) ↔
      (∀ t, NameChecked g t) ∧ ∀ t, ¬Relation.TransGen (NameLink g) t t := by
  constructor
  · intro h
    have hone : ∀ t, ∃ fuel s, abstractName g fuel (some t) = .ok s := fun t =>
      (h t).elim fun n hn => ⟨n + 1, hn (n + 1) (Nat.lt_succ_self n)⟩
    refine ⟨fun t => ?_, acyclic_of_acc fun t => ?_⟩
    · obtain ⟨fuel, s, hs⟩ := hone t
      exact nameChecked_of_abstractName hs
    · obtain ⟨fuel, s, hs⟩ := hone t
      exact acc_of_abstractName hs
  · rintro ⟨hchecked, hacyclic⟩ t
    obtain ⟨rank, hrank⟩ := exists_rank hacyclic
    refine ⟨rank t + 1, fun fuel hfuel => ?_⟩
    exact abstractName_of_rank hrank hchecked (fun u hu => Option.some.inj hu ▸ hfuel) (by omega)

end Facts

end Types
end Dwarfpp
