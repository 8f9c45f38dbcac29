/-
# The edges of the type graph

The type iterators of `src/dies.cpp` walk from a type to the types it refers to.
An edge leads to a target, `none` for `void`, and is labelled with its reason: the
referring type itself, or its data member or formal parameter.  The iterators
find the first edge of a type, and from the reason of an edge the next one;
`outgoingEdges` is what they yield.
-/

import Dwarfpp.Types.Graph

namespace Dwarfpp
namespace Types

variable {ι : Type}

section ImplicitTypes

variable (g : TypeGraph ι)

/-- The languages of the C family. -/
def Language.isC : Language → Bool
  | .c | .c89 | .cPlusPlus | .c99 => true
  | _ => false

/-- `implicit_enum_base_type()`. -/
def CompileUnit.implicitEnumBaseType (cu : CompileUnit ι) : Except Fault (Option ι) :=
  if cu.language.isC then
    match ["signed int", "int"].findSome? cu.namedChild with
    | some found => .ok (some found)
    | none => .error .assertFailed
  else .ok none

/-- An unnamed unsigned integer type, or `sizetype`. -/
def isSizeType (d : TypeDie ι) : Bool :=
  d.encoding = 7 ∧ (d.name = none ∨ d.name = some "sizetype")

/-- `implicit_subrange_base_type()`. -/
def CompileUnit.implicitSubrangeBaseType (cu : CompileUnit ι) : Except Fault (Option ι) :=
  let attempts := if cu.language.isC then ["unsigned int", "unsigned"] else []
  match attempts.findSome? cu.namedChild with
  | some found => .ok (some found)
  | none =>
    match cu.baseTypes.find? fun t => isSizeType (g t) with
    | some found => .ok (some found)
    | none => cu.implicitEnumBaseType

end ImplicitTypes

/-- The `reason()` of an edge. -/
inductive Reason (ι : Type)
  | type (t : ι)
  | dataMember (t : ι) (k : ℕ)
  | formalParameter (t : ι) (k : ℕ)
  deriving DecidableEq, Repr

/-- An edge, without its source. -/
structure OutgoingEdge (ι : Type) where
  target : Option ι
  reason : Reason ι
  deriving DecidableEq

/-- `source_vertex_for()`. -/
def Reason.source : Reason ι → ι
  | .type t | .dataMember t _ | .formalParameter t _ => t

section Edges

variable (g : TypeGraph ι)

/-- `first_outgoing_edge_target()`. -/
def firstOutgoingEdgeTarget : Option ι → Except Fault (Option (OutgoingEdge ι))
  | none => .ok none
  | some t =>
    match (g t).tag.cls with
    | .typeChain | .typedef | .ptrToMember | .array => .ok (some ⟨(g t).findType, .type t⟩)
    | .withDataMembers =>
      .ok ((g t).dataMembers.head?.map fun c => ⟨c.typeHandlingBitfields, .dataMember t 0⟩)
    | .subrange =>
      match (g t).findType with
      | some u => .ok (some ⟨some u, .type t⟩)
      | none => do
        let implicit ← (g t).enclosingCu.implicitSubrangeBaseType g
        return some ⟨implicit, .type t⟩
    | .enumeration =>
      match (g t).findType with
      | some u => .ok (some ⟨some u, .type t⟩)
      | none => do
        let implicit ← (g t).enclosingCu.implicitEnumBaseType
        return some ⟨implicit, .type t⟩
    | .typeDescribingSubprogram => .ok (some ⟨(g t).findType, .type t⟩)
    | .base | .unspecified => .ok none
    | .string => .error .assertFailed

/-- The types `first_outgoing_edge_target` has an answer for: no string type, and an enumeration
or a subrange without a type only where one is implicit. -/
def HasFirstEdge : Option ι → Prop
  | none => True
  | some t =>
    match (g t).tag.cls with
    | .string => False
    | .subrange =>
      (g t).findType = none → ∃ o, (g t).enclosingCu.implicitSubrangeBaseType g = .ok o
    | .enumeration =>
      (g t).findType = none → ∃ o, (g t).enclosingCu.implicitEnumBaseType = .ok o
    | _ => True

/-- The next data member, from the `k`th on. -/
def dataMemberEdge (t : ι) (k : ℕ) : Option (OutgoingEdge ι) :=
  (g t).dataMembers[k]?.map fun c => ⟨c.type, .dataMember t k⟩

/-- The next formal parameter, from the `k`th on. -/
def formalParameterEdge (t : ι) (k : ℕ) : Option (OutgoingEdge ι) :=
  (g t).formalParameters[k]?.map fun c => ⟨c.type, .formalParameter t k⟩

/-- `predecessor_node_next_outgoing_edge_target()`, given the `reason()`. -/
def nextOutgoingEdgeTarget : Option (Reason ι) → Except Fault (Option (OutgoingEdge ι))
  | some (.dataMember t k) => .ok (dataMemberEdge g t (k + 1))
  | some (.formalParameter t k) => .ok (formalParameterEdge g t (k + 1))
  | some (.type t) =>
    match (g t).tag.cls with
    | .typeDescribingSubprogram => .ok (formalParameterEdge g t 0)
    | .withDataMembers => .error .assertFailed
    | _ => .ok none
  | none => .ok none

/-- The edges a `type_iterator_outgoing_edges` yields after one with the given reason. -/
def laterEdges : Reason ι → List (OutgoingEdge ι)
  | .dataMember t k =>
    (List.range' (k + 1) ((g t).dataMembers.length - (k + 1))).filterMap (dataMemberEdge g t)
  | .formalParameter t k =>
    (List.range' (k + 1) ((g t).formalParameters.length - (k + 1))).filterMap
      (formalParameterEdge g t)
  | .type t =>
    if (g t).tag.cls = .typeDescribingSubprogram then
      (List.range' 0 (g t).formalParameters.length).filterMap (formalParameterEdge g t)
    else []

/-- The edges from an iterator's position on. -/
def edgesFrom : Option (OutgoingEdge ι) → List (OutgoingEdge ι)
  | none => []
  | some e => e :: laterEdges g e.reason

/-- The edges a `type_iterator_outgoing_edges` yields. -/
def outgoingEdges (t : Option ι) : Except Fault (List (OutgoingEdge ι)) := do
  let first ← firstOutgoingEdgeTarget g t
  return edgesFrom g first

end Edges

section Facts

variable {g : TypeGraph ι} {t : ι} {k : ℕ} {r : Reason ι} {e : OutgoingEdge ι}

theorem hasFirstEdge_iff {v : Option ι} :
    HasFirstEdge g v ↔ ∃ first, firstOutgoingEdgeTarget g v = .ok first := by
  have himplicit : ∀ {u : ι} {o : Except Fault (Option ι)},
      (∃ v, o = .ok v) ↔
        ∃ first, (do let v ← o; return some (⟨v, .type u⟩ : OutgoingEdge ι)) = .ok first := by
    intro u o
    cases o with
    | ok v => exact iff_of_true ⟨v, rfl⟩ ⟨_, rfl⟩
    | error f => exact iff_of_false (fun ⟨v, h⟩ => nomatch h) (fun ⟨v, h⟩ => nomatch h)
  cases v with
  | none => exact iff_of_true trivial ⟨_, rfl⟩
  | some u =>
    unfold HasFirstEdge firstOutgoingEdgeTarget
    cases hcls : (g u).tag.cls <;> simp only [hcls]
    case string => exact iff_of_false id (fun ⟨v, h⟩ => nomatch h)
    case subrange | enumeration =>
      cases hfind : (g u).findType with
      | some v => exact iff_of_true (fun h => nomatch h) ⟨_, rfl⟩
      | none => exact (forall_prop_of_true rfl).trans himplicit
    all_goals exact iff_of_true trivial ⟨_, rfl⟩

theorem edgesFrom_dataMemberEdge :
    edgesFrom g (dataMemberEdge g t k) =
      (List.range' k ((g t).dataMembers.length - k)).filterMap (dataMemberEdge g t) := by
  rcases Nat.lt_or_ge k (g t).dataMembers.length with hk | hk
  · obtain ⟨n, hn⟩ : ∃ n, (g t).dataMembers.length - k = n + 1 :=
      ⟨(g t).dataMembers.length - (k + 1), by omega⟩
    have hedge : dataMemberEdge g t k = some ⟨(g t).dataMembers[k].type, .dataMember t k⟩ := by
      rw [dataMemberEdge, List.getElem?_eq_getElem hk]
      rfl
    rw [hn, List.range'_succ, List.filterMap_cons, hedge, edgesFrom, laterEdges,
      show (g t).dataMembers.length - (k + 1) = n by omega]
  · rw [show (g t).dataMembers.length - k = 0 by omega, dataMemberEdge, List.getElem?_eq_none hk]
    rfl

theorem edgesFrom_formalParameterEdge :
    edgesFrom g (formalParameterEdge g t k) =
      (List.range' k ((g t).formalParameters.length - k)).filterMap (formalParameterEdge g t) := by
  rcases Nat.lt_or_ge k (g t).formalParameters.length with hk | hk
  · obtain ⟨n, hn⟩ : ∃ n, (g t).formalParameters.length - k = n + 1 :=
      ⟨(g t).formalParameters.length - (k + 1), by omega⟩
    have hedge : formalParameterEdge g t k =
        some ⟨(g t).formalParameters[k].type, .formalParameter t k⟩ := by
      rw [formalParameterEdge, List.getElem?_eq_getElem hk]
      rfl
    rw [hn, List.range'_succ, List.filterMap_cons, hedge, edgesFrom, laterEdges,
      show (g t).formalParameters.length - (k + 1) = n by omega]
  · rw [show (g t).formalParameters.length - k = 0 by omega, formalParameterEdge,
      List.getElem?_eq_none hk]
    rfl

/-- **The next edge** is the first of the later ones. -/
theorem laterEdges_eq {o : Option (OutgoingEdge ι)}
    (h : nextOutgoingEdgeTarget g (some r) = .ok o) : laterEdges g r = edgesFrom g o := by
  cases r with
  | dataMember t k =>
    obtain rfl := Except.ok.inj h
    exact edgesFrom_dataMemberEdge.symm
  | formalParameter t k =>
    obtain rfl := Except.ok.inj h
    exact edgesFrom_formalParameterEdge.symm
  | type t =>
    rw [laterEdges]
    cases hcls : (g t).tag.cls <;> rw [nextOutgoingEdgeTarget, hcls] at h
    case typeDescribingSubprogram =>
      obtain rfl := Except.ok.inj h
      exact edgesFrom_formalParameterEdge.symm
    case withDataMembers => exact nomatch h
    all_goals
      obtain rfl := Except.ok.inj h
      rfl

end Facts

end Types
end Dwarfpp
